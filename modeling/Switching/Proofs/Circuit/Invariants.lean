import Switching.Proofs.Circuit.Construction
import Switching.Proofs.Circuit.Substitution

/-!
# Properties that actions keep

What a construction step does is known where it succeeds, whether or not it can
fail.  An action in `AssemblyM` keeps a property of assemblies if the property
holds after every successful run before which it held.  A substitution keeps what its
replacements keep, whatever circuit it walks over.
-/

namespace Switching

namespace AssemblyM

/-! ## Steps as actions -/

/-- Adding a gate, where it succeeds, appends the gate. -/
theorem ensures_withGate (kind : GateKind) (operands : List Node) (start : Assembly) :
    Ensures (addGate kind operands) start (fun _ => True) fun node next =>
      node = .gate (start.nextId kind) ∧ next = start.withGate kind operands := by
  rw [Ensures, addGate]
  cases added : start.addGate kind operands with
  | error error => trivial
  | ok made =>
      rcases Assembly.addGate_eq_ok_iff.mp added with ⟨-, -, rfl⟩
      exact ⟨rfl, rfl⟩

/-- Binding an output, where it succeeds, leaves the gates alone. -/
theorem ensures_withOutput (name : String) (node : Node) (start : Assembly) :
    Ensures (setOutput name node) start (fun _ => True) fun _ next =>
      next = start.withOutput name node := by
  by_cases contained : start.circuit.contains node = true
  · exact ensures_setOutput contained
  · have fails : setOutput name node start = .error (.unknownNode node.name) := by
      rw [setOutput, Assembly.setOutput, Assembly.checkNode, if_neg contained]
      rfl
    rw [Ensures, fails]
    trivial

/-! ## Properties that actions keep -/

variable {α β σ : Type} {holds : Assembly → Prop}

/-- Wherever `holds` holds before a run of the action that succeeds, it holds
afterwards. -/
def Keeps (action : AssemblyM α) (holds : Assembly → Prop) : Prop :=
  ∀ start, holds start → Ensures action start (fun _ => True) fun _ next => holds next

theorem keeps_pure (result : α) : Keeps (pure result) holds :=
  fun _ here => ensures_pure here

theorem keeps_throw (error : SynthesisError) : Keeps (throw error : AssemblyM α) holds :=
  fun _ _ => ensures_throw trivial

theorem Keeps.bind {action : AssemblyM α} {continuation : α → AssemblyM β}
    (first : Keeps action holds) (rest : ∀ result, Keeps (continuation result) holds) :
    Keeps (action >>= continuation) holds :=
  fun start here => (first start here).bind fun result next there => rest result next there

theorem keeps_mapM {action : α → AssemblyM β} (each : ∀ member, Keeps (action member) holds)
    (members : List α) : Keeps (members.mapM action) holds := by
  induction members with
  | nil => exact keeps_pure []
  | cons member rest ih =>
      rw [List.mapM_cons]
      exact (each member).bind fun _ => ih.bind fun _ => keeps_pure _

theorem keeps_foldlM {action : β → α → AssemblyM β}
    (each : ∀ result member, Keeps (action result member) holds) (members : List α) (first : β) :
    Keeps (members.foldlM action first) holds := by
  induction members generalizing first with
  | nil => exact keeps_pure first
  | cons member rest ih =>
      rw [List.foldlM_cons]
      exact (each first member).bind ih

/-- The rule for two actions with a state, one after the other. -/
theorem keeps_stateBind {action : StateT σ AssemblyM α} {continuation : α → StateT σ AssemblyM β}
    {state : σ} (first : Keeps (action state) holds)
    (rest : ∀ result : α × σ, Keeps (continuation result.1 result.2) holds) :
    Keeps ((action >>= continuation) state) holds :=
  first.bind rest

theorem keeps_stateLift {action : AssemblyM α} (keeps : Keeps action holds) (state : σ) :
    Keeps ((monadLift action : StateT σ AssemblyM α) state) holds := by
  change Keeps (action >>= fun result => pure (result, state)) holds
  exact keeps.bind fun _ => keeps_pure _

theorem keeps_stateMapM {action : α → StateT σ AssemblyM β}
    (each : ∀ member state, Keeps (action member state) holds) (members : List α) (state : σ) :
    Keeps (members.mapM action state) holds := by
  induction members generalizing state with
  | nil => exact keeps_pure ([], state)
  | cons member rest ih =>
      rw [List.mapM_cons]
      exact keeps_stateBind (each member state) fun first =>
        keeps_stateBind (ih first.2) fun results => keeps_pure (first.1 :: results.1, results.2)

end AssemblyM

/-! ## Substitutions -/

namespace SubstitutionRule

variable {rule : SubstitutionRule} {circuit : Circuit} {holds : Assembly → Prop}

/-- The replacements of the gates of a circuit keep a property. -/
def Keeps (rule : SubstitutionRule) (circuit : Circuit) (holds : Assembly → Prop) : Prop :=
  ∀ gate ∈ circuit.gates, ∀ operands, AssemblyM.Keeps (rule.replace gate.kind operands) holds

theorem Keeps.substituteNode (keeps : rule.Keeps circuit holds) (depth : Nat) (node : Node)
    (replaced : Replaced) :
    AssemblyM.Keeps (rule.substituteNode circuit depth node replaced) holds := by
  induction depth generalizing node replaced with
  | zero =>
      cases node with
      | input name => exact AssemblyM.keeps_pure _
      | gate id => exact AssemblyM.keeps_throw _
  | succ depth ih =>
      cases node with
      | input name => exact AssemblyM.keeps_pure _
      | gate id =>
          have remembers : ∀ result : Node × Replaced, AssemblyM.Keeps
              ((do modify ((id, result.1) :: ·); return result.1 : SubstitutionM Node) result.2)
              holds := fun _ => AssemblyM.keeps_pure _
          intro start here
          unfold SubstitutionRule.substituteNode
          apply AssemblyM.ensures_stateGet
          cases known : replaced.lookup id with
          | some result => exact AssemblyM.keeps_pure (result, replaced) start here
          | none =>
              cases found : circuit.gate? id with
              | none => exact AssemblyM.keeps_throw (.unknownNode id.text) start here
              | some gate =>
                  have mem : gate ∈ circuit.gates :=
                    Array.mem_of_getElem? (circuit.gate?_eq_some_iff.mp found).1
                  cases passes : rule.bypass? circuit gate with
                  | some standIn =>
                      simp only [passes]
                      exact AssemblyM.keeps_stateBind (ih standIn replaced) remembers start here
                  | none =>
                      -- The one case in which the rule itself acts.
                      simp only [passes]
                      have visited := AssemblyM.keeps_stateMapM ih gate.operands replaced
                      exact AssemblyM.keeps_stateBind visited (fun operands =>
                        AssemblyM.keeps_stateBind
                          (AssemblyM.keeps_stateLift (keeps gate mem operands.1) operands.2)
                          remembers) start here

theorem Keeps.substituteOutputs (keeps : rule.Keeps circuit holds)
    (binds : ∀ name node, AssemblyM.Keeps (AssemblyM.setOutput name node) holds)
    (outputs : List (String × Node)) (replaced : Replaced) :
    AssemblyM.Keeps (rule.substituteOutputs circuit outputs replaced) holds := by
  induction outputs generalizing replaced with
  | nil => exact AssemblyM.keeps_pure _
  | cons output rest ih =>
      rcases output with ⟨name, node⟩
      unfold SubstitutionRule.substituteOutputs
      exact AssemblyM.keeps_stateBind (keeps.substituteNode circuit.gateCount node replaced)
        fun result => AssemblyM.keeps_stateBind
          (AssemblyM.keeps_stateLift (binds name result.1) result.2) fun unit => ih unit.2

/-- What holds of the declared inputs and is kept by every replacement and by
binding outputs holds of the result. -/
theorem Keeps.substitute (keeps : rule.Keeps circuit holds)
    (binds : ∀ name node, AssemblyM.Keeps (AssemblyM.setOutput name node) holds)
    (starts : holds (Assembly.addInputs ∅ circuit.inputs)) {result : Circuit}
    (ran : rule.substitute circuit = .ok result) :
    ∃ finished : Assembly, finished.circuit = result ∧ holds finished := by
  have ensures := keeps.substituteOutputs binds circuit.outputs [] _ starts
  change (rule.substituteOutputs circuit circuit.outputs []
    (Assembly.addInputs ∅ circuit.inputs)).map (·.2.circuit) = .ok result at ran
  cases made : rule.substituteOutputs circuit circuit.outputs []
      (Assembly.addInputs ∅ circuit.inputs) with
  | error error =>
      rw [made] at ran
      cases ran
  | ok finished =>
      rw [made] at ran
      exact ⟨finished.2, Except.ok.inj ran, ensures.of_eq_ok made⟩

end SubstitutionRule

end Switching
