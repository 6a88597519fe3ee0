import Switching.Expr.Eval

/-!
# Faults in truth tables
-/

namespace Switching

/-- The reasons for which a table cannot be made, read or changed. -/
inductive TableError
  | tooManyVariables (count limit : Nat)
  | tooManyOutputs (count limit : Nat)
  | patternLength (length width : Nat)
  | invalidPattern (pattern : String)
  | missingVariable (name : String)
  | duplicateVariable (name : String)
  | unknownOutput (name : String)
  | evaluation (error : EvalError)
  deriving DecidableEq, Repr

/-- The wording of a table error. -/
def TableError.message : TableError → String
  | .tooManyVariables count limit =>
      s!"Variable count ({count}) exceeds maximum allowed ({limit})"
  | .tooManyOutputs count limit =>
      s!"Output count ({count}) exceeds maximum allowed ({limit})"
  | .patternLength length width =>
      s!"Pattern length ({length}) does not match variable count ({width})"
  | .invalidPattern pattern =>
      s!"Invalid pattern '{pattern}': only '0' and '1' are allowed"
  | .missingVariable name => s!"Variable '{name}' not found in assignment"
  | .duplicateVariable name => s!"Variable '{name}' appears more than once"
  | .unknownOutput name => s!"Unknown output variable '{name}'"
  | .evaluation error => error.message

end Switching
