import Switching.Circuit.Substitution

/-!
# Removing double negations

A negation of a negation is replaced by what the inner one negates.  Negations
are `not` gates, and `nand` and `nor` gates over one node taken several times.
-/

namespace Switching

/-- The node of which a list consists, if its members are all the same. -/
def commonNode? : List Node → Option Node
  | [] => none
  | first :: rest => if rest.all (· = first) then some first else none

namespace Circuit

/-- The node that a double negation comes down to. -/
def doublyNegated? (circuit : Circuit) (gate : Gate) : Option Node :=
  match gate.kind with
  | .not => do
      let inner ← circuit.driver? (← commonNode? gate.operands)
      if inner.kind = .not then commonNode? inner.operands else none
  | .nand | .nor => do
      let inner ← circuit.driver? (← commonNode? gate.operands)
      if inner.kind = gate.kind ∧ 2 ≤ gate.operands.length ∧ 2 ≤ inner.operands.length then
        commonNode? inner.operands
      else none
  | _ => none

/-- The rule that passes over double negations and keeps all other gates. -/
def doubleNegationRule : SubstitutionRule where
  bypass? := doublyNegated?
  replace := AssemblyM.share

/-- The circuit without its double negations and its unreachable gates. -/
def collapseNegations (circuit : Circuit) : Except SynthesisError Circuit :=
  doubleNegationRule.substitute circuit

end Circuit

end Switching
