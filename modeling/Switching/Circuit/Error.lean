import Switching.Circuit.Gate

/-!
# Faults in circuit construction
-/

namespace Switching

/-- The reasons for which a circuit cannot be built or mapped. -/
inductive SynthesisError
  | unsupported (mapping : String) (kind : GateKind)
  | unsynthesizable (kind : GateKind)
  | unknownNode (name : String)
  | invalidArity (kind : GateKind) (arity : Nat)
  | unknownGateType (name : String)
  deriving DecidableEq, Repr

/-- The wording of a synthesis error. -/
def SynthesisError.message : SynthesisError → String
  | .unsupported mapping kind =>
      "Transformer '" ++ mapping ++ "' does not support gate type: " ++ kind.name
  | .unsynthesizable kind =>
      "Cannot synthesize gate type '" ++ kind.name ++ "' from the enabled gate set"
  | .unknownNode name => "Circuit references unknown node '" ++ name ++ "'"
  | .invalidArity kind arity =>
      "Gate type '" ++ kind.name ++ "' cannot take " ++ toString arity ++ " inputs"
  | .unknownGateType name => "Unknown gate type '" ++ name ++ "'"

/-- The kind of gate with the given name, or the error that there is none. -/
def GateKind.ofName (text : String) : Except SynthesisError GateKind :=
  match ofName? text with
  | some kind => .ok kind
  | none => .error (.unknownGateType (String.ofList (Text.trim text.toList)))

end Switching
