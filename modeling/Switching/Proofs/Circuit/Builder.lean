import Mathlib.Data.List.Nodup
import Switching.Proofs.Circuit.Construction
import Switching.Proofs.Text.Words

/-!
# Builders

A builder keeps an assembly together with an index, in which the position of
every gate is entered under the written identity of the gate, and changes both
call by call.  A call makes its changes one after the other, and an error would
leave those made before it.  As every call checks everything before its first
change, it either carries out the construction step or leaves the builder alone.
So the builder is consistent after any sequence of calls, whichever of them fail.
-/

namespace Switching

/-! ## Written identities -/

namespace GateKind

theorem name_injective : Function.Injective name := by
  have different : ∀ first ∈ all, ∀ second ∈ all, first.name = second.name → first = second := by
    decide
  exact fun first second => different first (mem_all first) second (mem_all second)

theorem underscore_notMem_name (kind : GateKind) : '_' ∉ kind.name.toList := by
  cases kind <;> decide

end GateKind

/-- Different identities are written differently. -/
theorem GateId.text_injective : Function.Injective GateId.text := by
  intro first second same
  have chars_eq : first.kind.name.toList ++ '_' :: (toString first.serial).toList =
      second.kind.name.toList ++ '_' :: (toString second.serial).toList := by
    simpa [text] using congrArg String.toList same
  have noUnderscore : '_' ∉ (toString first.serial).toList := fun mem => by
    cases Text.isDigit_of_mem_toString mem
  obtain ⟨name_eq, -, serial_eq⟩ := (List.append_cons_inj_of_notMem
    first.kind.underscore_notMem_name noUnderscore).mp chars_eq
  obtain ⟨kind, serial⟩ := first
  obtain rfl : kind = second.kind := GateKind.name_injective (String.toList_injective name_eq)
  obtain rfl : serial = second.serial :=
    Text.toString_injective (String.toList_injective serial_eq)
  rfl

namespace Circuit

variable {circuit : Circuit}

/-- The written identity of the gate at a position. -/
def textAt? (circuit : Circuit) (position : Nat) : Option String :=
  circuit.gates[position]?.map (·.id.text)

/-- A node that is a declared input or stands at an earlier position. -/
def Precedes (circuit : Circuit) (position : Nat) : Node → Prop
  | .input name => name ∈ circuit.inputs
  | .gate id => ∃ earlier < position, circuit.textAt? earlier = some id.text

namespace WellFormed

/-- A gate stands at the position that its number names, and nowhere else. -/
theorem textAt?_eq_some_iff (wellFormed : circuit.WellFormed) {id : GateId} {position : Nat} :
    circuit.textAt? position = some id.text ↔
      id.serial = position ∧ (circuit.gate? id).isSome = true := by
  rw [Option.isSome_iff_exists]
  constructor
  · intro stands
    obtain ⟨gate, at_position, text_eq⟩ := Option.map_eq_some_iff.mp stands
    obtain rfl := GateId.text_injective text_eq
    obtain rfl := wellFormed.serial_eq position gate at_position
    exact ⟨rfl, gate, (circuit.gate?_eq_some_iff).mpr ⟨at_position, rfl⟩⟩
  · rintro ⟨rfl, gate, found⟩
    obtain ⟨at_position, rfl⟩ := (circuit.gate?_eq_some_iff).mp found
    exact Option.map_eq_some_iff.mpr ⟨gate, at_position, rfl⟩

theorem precedes_of_nodeBefore (wellFormed : circuit.WellFormed) {position : Nat} {node : Node}
    (before : circuit.NodeBefore position node) : circuit.Precedes position node := by
  cases node with
  | input name => exact before
  | gate id =>
      obtain ⟨earlier, found⟩ := before
      exact ⟨id.serial, earlier, wellFormed.textAt?_eq_some_iff.mpr
        ⟨rfl, Option.isSome_iff_exists.mpr found⟩⟩

theorem texts_nodup (wellFormed : circuit.WellFormed) :
    (circuit.gates.toList.map (·.id.text)).Nodup := by
  have texts_nodup := List.Nodup.map GateId.text_injective wellFormed.ids_nodup
  rwa [List.map_map] at texts_nodup

end WellFormed

end Circuit

/-! ## Calls -/

/-- A builder: an assembly, and the position of each of its gates. -/
structure Builder where
  assembly : Assembly
  index : Std.HashMap String Nat

namespace Builder

instance : EmptyCollection Builder :=
  ⟨⟨∅, ∅⟩⟩

/-- The circuit at hand. -/
abbrev circuit (builder : Builder) : Circuit :=
  builder.assembly.circuit

/-- Whether a node is a declared input or an indexed gate. -/
def contains (builder : Builder) : Node → Bool
  | .input name => builder.circuit.inputs.contains name
  | .gate id => builder.index.contains id.text

end Builder

/-- Calls on the builder at hand.  An error keeps the changes that were made
before it. -/
abbrev BuilderM := ExceptT SynthesisError (StateM Builder)

namespace BuilderM

/-- Refuse a node that the builder at hand does not have. -/
def checkNode (node : Node) : BuilderM Unit := do
  let builder ← get
  unless builder.contains node do
    throw (.unknownNode node.name)

/-- Declare a primary input. -/
def addInput (name : String) : BuilderM Node := do
  let builder ← get
  unless builder.circuit.inputs.contains name do
    modify fun builder => { builder with
      assembly.circuit.inputs := builder.circuit.inputs ++ [name] }
  return .input name

/-- Append a gate: count it, enter its position, and put it behind the
others. -/
def addGate (kind : GateKind) (operands : List Node) : BuilderM Node := do
  unless kind.accepts operands.length do
    throw (.invalidArity kind operands.length)
  operands.forM checkNode
  let builder ← get
  let id : GateId := ⟨kind, builder.assembly.nextSerial⟩
  modify fun builder => { builder with
    assembly.nextSerial := builder.assembly.nextSerial + 1 }
  modify fun builder => { builder with
    index := builder.index.insert id.text builder.circuit.gates.size }
  modify fun builder => { builder with
    assembly.circuit.gates := builder.circuit.gates.push ⟨id, operands⟩ }
  return .gate id

/-- Bind an output. -/
def setOutput (name : String) (node : Node) : BuilderM Unit := do
  checkNode node
  modify fun builder => { builder with
    assembly.circuit.outputs := Assembly.bindOutput name node builder.circuit.outputs }

/-- Drop everything and start the numbering again. -/
def reset : BuilderM Unit :=
  set (∅ : Builder)

/-- The call for a construction step. -/
def call : Assembly.Step → BuilderM Unit
  | .addInput name => discard (addInput name)
  | .addGate kind operands => discard (addGate kind operands)
  | .setOutput name node => setOutput name node
  | .reset => reset

variable {α β : Type} {builder : Builder}

/-- The answer to a call and the builder that it leaves. -/
def on (action : BuilderM α) (builder : Builder) : Except SynthesisError α × Builder :=
  action.run.run builder

/-- The builder after several calls in turn, of which any may fail. -/
def after (builder : Builder) : List Assembly.Step → Builder
  | [] => builder
  | step :: rest => after ((call step).on builder).2 rest

/-! ## Answers -/

theorem on_get_bind {next : Builder → BuilderM β} :
    (get >>= next).on builder = (next builder).on builder :=
  rfl

theorem on_bind {action : BuilderM α} {next : α → BuilderM β} :
    (action >>= next).on builder =
      match action.on builder with
      | (.ok value, middle) => (next value).on middle
      | (.error error, middle) => (.error error, middle) := by
  change (match action.on builder with
    | (answer, middle) => (ExceptT.bindCont next answer).run middle) = _
  rcases action.on builder with ⟨_ | _, _⟩ <;> rfl

end BuilderM

/-! ## Invariant -/

namespace Builder

variable {builder : Builder}

/-- A builder with a well-formed assembly, in whose index all its gates and
nothing else is entered. -/
structure WellFormed (builder : Builder) : Prop where
  assembly : builder.assembly.WellFormed
  index_eq_some_iff : ∀ (text : String) (position : Nat),
    builder.index[text]? = some position ↔ builder.circuit.textAt? position = some text

theorem wellFormed_empty : (∅ : Builder).WellFormed where
  assembly := Assembly.wellFormed_empty
  index_eq_some_iff text position := by
    change (∅ : Std.HashMap String Nat)[text]? = some position ↔ none = some text
    simp

/-- A well-formed builder looks its nodes up in the index as the circuit does
among its gates. -/
theorem WellFormed.contains_eq (wellFormed : builder.WellFormed) (node : Node) :
    builder.contains node = builder.circuit.contains node := by
  cases node with
  | input name => rfl
  | gate id =>
      rw [Bool.eq_iff_iff, contains, Circuit.contains, Std.HashMap.contains_eq_isSome_getElem?,
        Option.isSome_iff_exists]
      simp only [wellFormed.index_eq_some_iff, wellFormed.assembly.circuit.textAt?_eq_some_iff,
        exists_eq_left']

/-- The builder with one gate more. -/
def withGate (builder : Builder) (kind : GateKind) (operands : List Node) : Builder where
  assembly := builder.assembly.withGate kind operands
  index := builder.index.insert (builder.assembly.nextId kind).text builder.circuit.gates.size

theorem textAt?_withGate (builder : Builder) (kind : GateKind) (operands : List Node)
    (position : Nat) :
    (builder.withGate kind operands).circuit.textAt? position =
      if position = builder.circuit.gates.size then some (builder.assembly.nextId kind).text
      else builder.circuit.textAt? position := by
  change ((builder.circuit.gates.push _)[position]?).map _ = _
  rw [Array.getElem?_push]
  split
  · rfl
  · rfl

/-- No gate has the identity that the next one gets. -/
theorem WellFormed.textAt?_ne_nextId (wellFormed : builder.WellFormed) (kind : GateKind)
    (position : Nat) :
    builder.circuit.textAt? position ≠ some (builder.assembly.nextId kind).text := by
  intro stands
  obtain ⟨serial_eq, found⟩ := wellFormed.assembly.circuit.textAt?_eq_some_iff.mp stands
  obtain ⟨gate, found⟩ := Option.isSome_iff_exists.mp found
  have at_end := ((Circuit.gate?_eq_some_iff _).mp found).1
  change builder.circuit.gates[builder.assembly.nextSerial]? = some gate at at_end
  rw [wellFormed.assembly.nextSerial_eq, Array.getElem?_size] at at_end
  cases at_end

theorem WellFormed.withGate (wellFormed : builder.WellFormed) {kind : GateKind}
    {operands : List Node} (accepts : kind.accepts operands.length = true)
    (contained : ∀ node ∈ operands, builder.circuit.contains node = true) :
    (builder.withGate kind operands).WellFormed where
  assembly := (Assembly.grows_withGate wellFormed.assembly accepts contained).wellFormed
  index_eq_some_iff text position := by
    have index_eq : (builder.withGate kind operands).index[text]? =
        if (builder.assembly.nextId kind).text == text then some builder.circuit.gates.size
        else builder.index[text]? :=
      Std.HashMap.getElem?_insert
    rw [index_eq, textAt?_withGate]
    by_cases new : (builder.assembly.nextId kind).text = text
    · -- Only the new gate has this identity.
      subst new
      simp [eq_comm, wellFormed.textAt?_ne_nextId kind position]
    · have free : builder.circuit.textAt? builder.circuit.gates.size = none := by
        rw [Circuit.textAt?, Array.getElem?_size, Option.map_none]
      rw [beq_false_of_ne new, if_neg Bool.false_ne_true, wellFormed.index_eq_some_iff]
      split
      · rename_i last
        simp [last, free, new]
      · rfl

end Builder

namespace BuilderM

variable {α : Type} {builder : Builder} {action : BuilderM α}

/-! ## Calls carry out steps -/

/-- An action carries out a step as a whole: if the step succeeds then the
action answers the same and leaves a well-formed builder with the assembly after
the step, and if the step fails then the action gives the same error and leaves
the builder as it was. -/
def CarriesOut (action : BuilderM α) (builder : Builder) :
    Except SynthesisError (α × Assembly) → Prop
  | .ok (value, assembly) => ∃ next : Builder,
      action.on builder = (.ok value, next) ∧ next.assembly = assembly ∧ next.WellFormed
  | .error error => action.on builder = (.error error, builder)

theorem carriesOut_error_iff {error : SynthesisError} :
    CarriesOut action builder (.error error) ↔ action.on builder = (.error error, builder) :=
  Iff.rfl

theorem CarriesOut.discard {outcome : Except SynthesisError (α × Assembly)}
    (carriesOut : CarriesOut action builder outcome) :
    CarriesOut (Functor.discard action) builder (outcome.map fun made => ((), made.2)) := by
  change CarriesOut (action >>= fun _ => pure ()) builder _
  cases outcome with
  | error error =>
      rw [carriesOut_error_iff] at carriesOut
      refine carriesOut_error_iff.mpr ?_
      rw [on_bind, carriesOut]
  | ok made =>
      obtain ⟨next, answered, assembly_eq, wellFormed⟩ := carriesOut
      refine ⟨next, ?_, assembly_eq, wellFormed⟩
      rw [on_bind, answered]
      rfl

theorem checkNode_on (wellFormed : builder.WellFormed) (node : Node) :
    (checkNode node).on builder = (builder.assembly.checkNode node, builder) := by
  rw [checkNode, on_get_bind, Assembly.checkNode, wellFormed.contains_eq]
  by_cases contained : builder.circuit.contains node = true
  · rw [if_pos contained, contained]
    rfl
  · rw [if_neg contained, eq_false_of_ne_true contained]
    rfl

theorem forM_checkNode_on (wellFormed : builder.WellFormed) (nodes : List Node) :
    (nodes.forM checkNode).on builder = (nodes.forM builder.assembly.checkNode, builder) := by
  induction nodes with
  | nil => rfl
  | cons node rest ih =>
      change (checkNode node >>= fun _ => rest.forM checkNode).on builder =
        (builder.assembly.checkNode node >>= fun _ => rest.forM builder.assembly.checkNode, builder)
      rw [on_bind, checkNode_on wellFormed]
      cases builder.assembly.checkNode node with
      | error error => rfl
      | ok => exact ih

theorem carriesOut_addInput (wellFormed : builder.WellFormed) (name : String) :
    CarriesOut (addInput name) builder (.ok (.input name, builder.assembly.addInput name)) := by
  have nextWellFormed := Assembly.wellFormed_addInput wellFormed.assembly name
  rw [CarriesOut, addInput, on_get_bind]
  unfold Assembly.addInput at nextWellFormed ⊢
  by_cases declared : builder.circuit.inputs.contains name = true
  · rw [if_pos declared, declared]
    exact ⟨builder, rfl, rfl, wellFormed⟩
  · rw [if_neg declared] at nextWellFormed ⊢
    rw [eq_false_of_ne_true declared]
    exact ⟨_, rfl, rfl, nextWellFormed, wellFormed.index_eq_some_iff⟩

/-- A gate is added as a whole or not at all. -/
theorem carriesOut_addGate (wellFormed : builder.WellFormed) (kind : GateKind)
    (operands : List Node) :
    CarriesOut (addGate kind operands) builder (builder.assembly.addGate kind operands) := by
  by_cases accepts : kind.accepts operands.length = true
  · have answered : (addGate kind operands).on builder =
        match operands.forM builder.assembly.checkNode with
        | .ok () => (.ok (.gate (builder.assembly.nextId kind)), builder.withGate kind operands)
        | .error error => (.error error, builder) := by
      rw [addGate, accepts]
      change (operands.forM checkNode >>= fun _ => _).on builder = _
      rw [on_bind, forM_checkNode_on wellFormed]
      cases operands.forM builder.assembly.checkNode with
      | error error => rfl
      | ok => rfl
    cases checked : operands.forM builder.assembly.checkNode with
    | error error =>
        rw [Assembly.addGate, if_pos accepts, checked]
        rw [checked] at answered
        exact answered
    | ok =>
        have contained := Assembly.forM_checkNode_eq_ok_iff.mp checked
        rw [Assembly.addGate_eq_ok accepts contained]
        rw [checked] at answered
        exact ⟨_, answered, rfl, wellFormed.withGate accepts contained⟩
  · rw [Assembly.addGate, if_neg accepts]
    refine carriesOut_error_iff.mpr ?_
    rw [addGate, eq_false_of_ne_true accepts]
    rfl

/-- An output is bound, or nothing changes. -/
theorem carriesOut_setOutput (wellFormed : builder.WellFormed) (name : String) (node : Node) :
    CarriesOut (setOutput name node) builder
      ((builder.assembly.setOutput name node).map ((), ·)) := by
  by_cases contained : builder.circuit.contains node = true
  · have nextWellFormed : (builder.assembly.withOutput name node).WellFormed :=
      Assembly.wellFormed_withOutput wellFormed.assembly contained
    rw [Assembly.setOutput_eq_ok contained]
    refine ⟨⟨builder.assembly.withOutput name node, builder.index⟩, ?_, rfl, nextWellFormed,
      wellFormed.index_eq_some_iff⟩
    rw [setOutput, on_bind, checkNode_on wellFormed, Assembly.checkNode, if_pos contained]
    rfl
  · rw [Assembly.setOutput, Assembly.checkNode, if_neg contained]
    refine carriesOut_error_iff.mpr ?_
    rw [setOutput, on_bind, checkNode_on wellFormed, Assembly.checkNode, if_neg contained]

/-- A call carries out its step as a whole. -/
theorem carriesOut_call (wellFormed : builder.WellFormed) (step : Assembly.Step) :
    CarriesOut (call step) builder ((builder.assembly.step step).map ((), ·)) := by
  cases step with
  | addInput name => exact (carriesOut_addInput wellFormed name).discard
  | addGate kind operands =>
      have carriesOut := (carriesOut_addGate wellFormed kind operands).discard
      rw [Assembly.step]
      cases added : builder.assembly.addGate kind operands with
      | error error => rwa [added] at carriesOut
      | ok made => rwa [added] at carriesOut
  | setOutput name node => exact carriesOut_setOutput wellFormed name node
  | reset => exact ⟨∅, rfl, rfl, Builder.wellFormed_empty⟩

/-- A call succeeds with its step, or fails with it and leaves the builder as it
was. -/
theorem call_cases (wellFormed : builder.WellFormed) (step : Assembly.Step) :
    (∃ next : Builder, builder.assembly.step step = .ok next.assembly ∧
      (call step).on builder = (.ok (), next) ∧ next.WellFormed) ∨
    ∃ error, builder.assembly.step step = .error error ∧
      (call step).on builder = (.error error, builder) := by
  have carriesOut := carriesOut_call wellFormed step
  cases stepped : builder.assembly.step step with
  | ok assembly =>
      rw [stepped] at carriesOut
      obtain ⟨next, answered, rfl, nextWellFormed⟩ := carriesOut
      exact .inl ⟨next, rfl, answered, nextWellFormed⟩
  | error error =>
      rw [stepped] at carriesOut
      exact .inr ⟨error, rfl, carriesOut⟩

/-- Calls in turn leave a well-formed builder with the assembly that the steps
make. -/
theorem after_steps (wellFormed : builder.WellFormed) (sequence : List Assembly.Step) :
    (after builder sequence).WellFormed ∧
      (after builder sequence).assembly = builder.assembly.steps sequence := by
  induction sequence generalizing builder with
  | nil => exact ⟨wellFormed, rfl⟩
  | cons step rest ih =>
      rw [after, Assembly.steps]
      rcases call_cases wellFormed step with
        ⟨next, stepped, answered, nextWellFormed⟩ | ⟨error, stepped, answered⟩
      · rw [stepped, answered]
        exact ih nextWellFormed
      · rw [stepped, answered]
        exact ih wellFormed

end BuilderM

/-! ## Consistent builders -/

namespace Builder

variable {builder : Builder}

/-- What ties the inputs, the gates, the index and the outputs of a builder
together. -/
structure Consistent (builder : Builder) : Prop where
  inputs_nodup : builder.circuit.inputs.Nodup
  texts_nodup : (builder.circuit.gates.toList.map (·.id.text)).Nodup
  index_eq_some_iff : ∀ (text : String) (position : Nat),
    builder.index[text]? = some position ↔ builder.circuit.textAt? position = some text
  arity_accepted : ∀ gate ∈ builder.circuit.gates,
    gate.kind.accepts gate.operands.length = true
  operands_precede : ∀ (position : Nat) (gate : Gate),
    builder.circuit.gates[position]? = some gate →
      ∀ operand ∈ gate.operands, builder.circuit.Precedes position operand
  outputs_nodup : (builder.circuit.outputs.map Prod.fst).Nodup
  outputs_bound : ∀ output ∈ builder.circuit.outputs,
    builder.circuit.Precedes builder.circuit.gates.size output.2

/-- A well-formed builder is consistent. -/
theorem WellFormed.consistent (wellFormed : builder.WellFormed) : builder.Consistent where
  inputs_nodup := wellFormed.assembly.circuit.inputs_nodup
  texts_nodup := wellFormed.assembly.circuit.texts_nodup
  index_eq_some_iff := wellFormed.index_eq_some_iff
  arity_accepted := wellFormed.assembly.circuit.arity_accepted
  operands_precede position gate at_position operand mem :=
    wellFormed.assembly.circuit.precedes_of_nodeBefore
      (wellFormed.assembly.circuit.operands_before position gate at_position operand mem)
  outputs_nodup := wellFormed.assembly.circuit.outputs_nodup
  outputs_bound output mem := wellFormed.assembly.circuit.precedes_of_nodeBefore
    (wellFormed.assembly.circuit.outputs_bound output mem)

end Builder

namespace BuilderM

/-- After any sequence of calls on an empty builder, of which any may fail, the
builder is consistent and holds the assembly that the construction steps make,
and a further call that answers with an error leaves assembly and index as they
are. -/
theorem consistent_after (sequence : List Assembly.Step) :
    (after ∅ sequence).Consistent ∧
      (after ∅ sequence).assembly = Assembly.steps ∅ sequence ∧
      ∀ (step : Assembly.Step) (error : SynthesisError) (left : Builder),
        (call step).on (after ∅ sequence) = (.error error, left) →
          left = after ∅ sequence := by
  obtain ⟨wellFormed, assembly_eq⟩ := after_steps Builder.wellFormed_empty sequence
  refine ⟨wellFormed.consistent, assembly_eq, ?_⟩
  intro step error left answered
  rcases call_cases wellFormed step with ⟨next, -, succeeded, -⟩ | ⟨failure, -, failed⟩
  · cases answered.symm.trans succeeded
  · exact congrArg Prod.snd (answered.symm.trans failed)

/-- Calls after which a gate of an earlier numbering is out of date. -/
def staleSteps : List Assembly.Step :=
  [.addInput "a", .addGate .not [.input "a"], .reset, .addInput "b", .addGate .buf [.input "b"],
    .setOutput "Y" (.gate ⟨.buf, 0⟩)]

theorem stale_consistent_after :
    ∃ left, (call (.addGate .and [.input "b", .gate ⟨.not, 0⟩])).on (after ∅ staleSteps) =
        (.error (.unknownNode "not_0"), left) ∧
      (after ∅ staleSteps).Consistent ∧ left = after ∅ staleSteps := by
  obtain ⟨consistent, assembly_eq, unchanged⟩ := consistent_after staleSteps
  have wellFormed := (after_steps Builder.wellFormed_empty staleSteps).1
  have stepped : (Assembly.steps ∅ staleSteps).step (.addGate .and [.input "b", .gate ⟨.not, 0⟩]) =
      .error (.unknownNode "not_0") := by
    decide +kernel
  have carriesOut := carriesOut_call wellFormed (.addGate .and [.input "b", .gate ⟨.not, 0⟩])
  rw [assembly_eq, stepped] at carriesOut
  exact ⟨_, carriesOut, consistent, unchanged _ _ _ carriesOut⟩

end BuilderM

end Switching
