import Switching.Expr.Basic
import Switching.Expr.Assignment

/-!
# Values of expressions

`Expr.evaluate` computes the value of an expression under an assignment and
reports the first variable without a value.  `Expr.denote` is the value under
a total valuation, for which nothing can be missing.
-/

namespace Switching

/-- The reasons for which an evaluation or simulation has no value. -/
inductive EvalError
  | undefinedVariable (name : String)
  | unknownNode (id : String)
  | unknownOutput (name : String)
  deriving DecidableEq, Repr

/-- The wording of an evaluation error. -/
def EvalError.message : EvalError → String
  | .undefinedVariable name => "Variable '" ++ name ++ "' is not defined in the assignment"
  | .unknownNode id => "Circuit references unknown gate '" ++ id ++ "'"
  | .unknownOutput name => "Circuit has no output named '" ++ name ++ "'"

/-- The value of a name, or the error that it has none. -/
def Assignment.value (assignment : Assignment) (name : String) : Except EvalError Bool :=
  match assignment.value? name with
  | some value => .ok value
  | none => .error (.undefinedVariable name)

namespace Expr

/-- The value of an expression.  Both operands of a connective are evaluated,
the left one first, so a variable without a value is reported even where the
result does not depend on it. -/
def evaluate (assignment : Assignment) : Expr → Except EvalError Bool
  | .constant value => .ok value
  | .var name => assignment.value name
  | .not operand => do
      let value ← operand.evaluate assignment
      return !value
  | .binary op left right => do
      let leftValue ← left.evaluate assignment
      let rightValue ← right.evaluate assignment
      return op.apply leftValue rightValue

/-- The value of an expression under a total valuation. -/
def denote (valuation : String → Bool) : Expr → Bool
  | .constant value => value
  | .var name => valuation name
  | .not operand => !operand.denote valuation
  | .binary op left right => op.apply (left.denote valuation) (right.denote valuation)

/-- Where the variables of an expression have the values of a valuation, both
ways of evaluating agree. -/
theorem evaluate_eq_ok_denote {assignment : Assignment} {valuation : String → Bool}
    {expr : Expr} (agree : ∀ name ∈ expr.occurrences,
      assignment.value? name = some (valuation name)) :
    expr.evaluate assignment = .ok (expr.denote valuation) := by
  induction expr with
  | constant value => rfl
  | var name =>
      have assigned := agree name List.mem_cons_self
      simp [evaluate, Assignment.value, assigned, denote]
  | not operand ih =>
      simp only [evaluate, ih agree, denote]
      rfl
  | binary op left right ihLeft ihRight =>
      have left_eq := ihLeft fun name mem => agree name (List.mem_append_left _ mem)
      have right_eq := ihRight fun name mem => agree name (List.mem_append_right _ mem)
      simp only [evaluate, left_eq, right_eq, denote]
      rfl

end Expr

end Switching
