import Switching.Circuit.Error

/-!
# Sets of gate kinds
-/

namespace Switching

/-- A set of kinds of gate. -/
structure GateSet where
  contains : GateKind → Bool

namespace GateSet

instance : EmptyCollection GateSet :=
  ⟨⟨fun _ => false⟩⟩

instance : Inhabited GateSet :=
  ⟨∅⟩

/-- The set of all kinds of gate. -/
def all : GateSet :=
  ⟨fun _ => true⟩

/-- The set of the given kinds. -/
def ofList (kinds : List GateKind) : GateSet :=
  ⟨kinds.contains⟩

/-- The set that allows `nand` alone. -/
def nandOnly : GateSet :=
  ofList [.nand]

/-- The set that allows `nor` alone. -/
def norOnly : GateSet :=
  ofList [.nor]

/-- Add a kind to a set. -/
def enable (gates : GateSet) (kind : GateKind) : GateSet :=
  ⟨fun other => other == kind || gates.contains other⟩

/-- Take a kind out of a set. -/
def disable (gates : GateSet) (kind : GateKind) : GateSet :=
  ⟨fun other => other != kind && gates.contains other⟩

/-- The kinds in a set, in listing order. -/
def toList (gates : GateSet) : List GateKind :=
  GateKind.all.filter gates.contains

@[simp]
theorem contains_enable (gates : GateSet) (kind other : GateKind) :
    (gates.enable kind).contains other = (other == kind || gates.contains other) :=
  rfl

@[simp]
theorem contains_disable (gates : GateSet) (kind other : GateKind) :
    (gates.disable kind).contains other = (other != kind && gates.contains other) :=
  rfl

@[simp]
theorem mem_toList {gates : GateSet} {kind : GateKind} :
    kind ∈ gates.toList ↔ gates.contains kind = true := by
  simp [toList, GateKind.mem_all]

/-- Whether a set has no kind of gate. -/
def isEmpty (gates : GateSet) : Bool :=
  gates.toList.isEmpty

/-- The set of the kinds with the given names; the first unknown name is an
error. -/
def ofNames (names : List String) : Except SynthesisError GateSet :=
  return ofList (← names.mapM GateKind.ofName)

/-- A set as text: its names between braces. -/
def render (gates : GateSet) : String :=
  "\x7b" ++ String.intercalate ", " (gates.toList.map GateKind.name) ++ "\x7d"

end GateSet

end Switching
