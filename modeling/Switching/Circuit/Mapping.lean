import Switching.Circuit.GateSet
import Switching.Circuit.Substitution

/-!
# Mapping circuits onto gate libraries

Two libraries consist of one universal gate, `nand` or `nor`, from which
negation, conjunction and disjunction are made.  A custom library is any set
of gates; a gate outside the set is made of gates in the set by the first of
its decompositions that applies.  The constants and `buf` are always at hand
in a custom library.
-/

namespace Switching

/-- A gate from which all others can be made.  It negates the function
`negated`, and `dual` is the other one of conjunction and disjunction. -/
structure UniversalGate where
  base : GateKind
  negated : GateKind
  dual : GateKind
  mapping : String

namespace UniversalGate

/-- The universal gate `nand`. -/
def nand : UniversalGate :=
  { base := .nand, negated := .and, dual := .or, mapping := "to_nand_only" }

/-- The universal gate `nor`. -/
def nor : UniversalGate :=
  { base := .nor, negated := .or, dual := .and, mapping := "to_nor_only" }

/-- The replacement of a gate by the universal gate. -/
def replace (gate : UniversalGate) (kind : GateKind) (operands : List Node) : AssemblyM Node := do
  if kind = gate.base ∨ kind.isConstant then
    AssemblyM.share kind operands
  else if kind = .not then
    match operands with
    | [operand] => AssemblyM.shareTwice gate.base operand
    | _ => throw (.invalidArity kind operands.length)
  else if kind = gate.negated then
    let negation ← AssemblyM.share gate.base operands
    AssemblyM.shareTwice gate.base negation
  else if kind = gate.dual then
    let negations ← operands.mapM (AssemblyM.shareTwice gate.base)
    AssemblyM.share gate.base negations
  else
    throw (.unsupported gate.mapping kind)

/-- The rule that maps every gate to the universal gate. -/
def rule (gate : UniversalGate) : SubstitutionRule where
  bypass? _ _ := none
  replace := gate.replace

end UniversalGate

namespace GateSet

/-- Make a gate of an enabled kind, or go on with its decompositions. -/
def shareOr (gates : GateSet) (kind : GateKind) (operands : List Node)
    (decompose : AssemblyM Node) : AssemblyM Node :=
  if gates.contains kind then AssemblyM.share kind operands else decompose

/-- A gate of kind `not`: `nand(a, a)` or `nor(a, a)`. -/
def makeNot (gates : GateSet) (operands : List Node) : AssemblyM Node :=
  gates.shareOr .not operands <|
    match operands with
    | [operand] =>
        if gates.contains .nand then AssemblyM.shareTwice .nand operand
        else if gates.contains .nor then AssemblyM.shareTwice .nor operand
        else throw (.unsynthesizable .not)
    | _ => throw (.invalidArity .not operands.length)

/-- The negation of a node. -/
def negate (gates : GateSet) (node : Node) : AssemblyM Node :=
  gates.makeNot [node]

/-- The negations of several nodes. -/
def negateAll (gates : GateSet) (nodes : List Node) : AssemblyM (List Node) :=
  nodes.mapM gates.negate

/-- A gate of kind `and`: `¬nand(a, b)`, `nor(¬a, ¬b)` or `¬or(¬a, ¬b)`. -/
def makeAnd (gates : GateSet) (operands : List Node) : AssemblyM Node :=
  gates.shareOr .and operands do
    if gates.contains .nand then
      gates.negate (← AssemblyM.share .nand operands)
    else if gates.contains .nor then
      AssemblyM.share .nor (← gates.negateAll operands)
    else if gates.contains .or then
      gates.negate (← AssemblyM.share .or (← gates.negateAll operands))
    else
      throw (.unsynthesizable .and)

/-- A gate of kind `or`: `nand(¬a, ¬b)`, `¬nor(a, b)` or `¬and(¬a, ¬b)`. -/
def makeOr (gates : GateSet) (operands : List Node) : AssemblyM Node :=
  gates.shareOr .or operands do
    if gates.contains .nand then
      AssemblyM.share .nand (← gates.negateAll operands)
    else if gates.contains .nor then
      gates.negate (← AssemblyM.share .nor operands)
    else if gates.contains .and then
      gates.negate (← AssemblyM.share .and (← gates.negateAll operands))
    else
      throw (.unsynthesizable .or)

/-- The exclusive disjunction of two nodes as `a・¬b + ¬a・b`. -/
def makeXorPair (gates : GateSet) (left right : Node) : AssemblyM Node := do
  let notLeft ← gates.negate left
  let notRight ← gates.negate right
  let leftOnly ← gates.makeAnd [left, notRight]
  let rightOnly ← gates.makeAnd [notLeft, right]
  gates.makeOr [leftOnly, rightOnly]

/-- A gate of kind `xor`: `¬xnor(a, b)`, or pair by pair from the left. -/
def makeXor (gates : GateSet) (operands : List Node) : AssemblyM Node :=
  gates.shareOr .xor operands do
    if gates.contains .xnor then
      gates.negate (← AssemblyM.share .xnor operands)
    else
      match operands with
      | [] => throw (.invalidArity .xor 0)
      | first :: rest => rest.foldlM gates.makeXorPair first

/-- The replacement of a gate by gates of the set. -/
def replace (gates : GateSet) (kind : GateKind) (operands : List Node) : AssemblyM Node :=
  match kind with
  | .not => gates.makeNot operands
  | .and => gates.makeAnd operands
  | .or => gates.makeOr operands
  | .xor => gates.makeXor operands
  | .nand => gates.shareOr .nand operands do gates.negate (← gates.makeAnd operands)
  | .nor => gates.shareOr .nor operands do gates.negate (← gates.makeOr operands)
  | .xnor => gates.shareOr .xnor operands do gates.negate (← gates.makeXor operands)
  | .buf => AssemblyM.share .buf operands
  | .vcc => AssemblyM.share .vcc operands
  | .gnd => AssemblyM.share .gnd operands

/-- The rule that maps every gate into the set. -/
def rule (gates : GateSet) : SubstitutionRule where
  bypass? _ _ := none
  replace := gates.replace

end GateSet

namespace Circuit

/-- The circuit made of `nand` gates and constants. -/
def toNand (circuit : Circuit) : Except SynthesisError Circuit :=
  UniversalGate.nand.rule.substitute circuit

/-- The circuit made of `nor` gates and constants. -/
def toNor (circuit : Circuit) : Except SynthesisError Circuit :=
  UniversalGate.nor.rule.substitute circuit

/-- The circuit made of gates of a set, of constants and of `buf`. -/
def toGateSet (circuit : Circuit) (gates : GateSet) : Except SynthesisError Circuit :=
  gates.rule.substitute circuit

end Circuit

end Switching
