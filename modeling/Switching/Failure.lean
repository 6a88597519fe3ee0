import Switching.Circuit.Error
import Switching.Expr.ParseError
import Switching.Pla.Error

/-!
# Failures

Every part of the library reports faults of its own.  A `Failure` is a fault
of any part, with the texts under which it is reported as a whole.
-/

namespace Switching

/-- A fault of any part of the library. -/
inductive Failure
  | parse (error : ParseError)
  | evaluation (error : EvalError)
  | table (error : TableError)
  | synthesis (error : SynthesisError)
  | plaRead (error : Pla.ReadError)
  | plaWrite (error : Pla.WriteError)
  deriving DecidableEq, Repr

/-- The classes into which faults fall when they are passed on through a
stream. -/
inductive FaultClass
  | invalidInput
  | invalidData
  | notFound
  | notDirectory
  | isDirectory
  | storageFull
  | other
  deriving DecidableEq, Repr

/-- The class of a stream fault. -/
def Pla.StreamFault.faultClass : Pla.StreamFault → FaultClass
  | .invalidUtf8 => .invalidData
  | .notFound => .notFound
  | .notDirectory => .notDirectory
  | .isDirectory => .isDirectory
  | .full => .storageFull
  | .unavailable _ => .other

namespace Failure

/-- The wording of a fault. -/
def message : Failure → String
  | .parse error => error.message
  | .evaluation error => error.message
  | .table error => error.message
  | .synthesis error => error.message
  | .plaRead error => error.message
  | .plaWrite error => error.message

/-- The wording of a fault with the part of the library that it comes from. -/
def report : Failure → String
  | .parse error => "Parse error: " ++ error.message
  | .evaluation error => "Evaluation error: " ++ error.message
  | .table error => "Truth table error: " ++ error.message
  | .synthesis error => "Synthesis error: " ++ error.message
  | .plaRead error => error.message
  | .plaWrite error => error.message

/-- The faults behind a failure, from the outermost to the innermost one. -/
def causes : Failure → List String
  | .table (.evaluation error) => [error.message, error.message]
  | .plaRead error => [error.message, error.cause]
  | .plaWrite error => [error.message, error.fault.message]
  | failure => [failure.message]

/-- The class of a failure when it is passed on as a whole. -/
def faultClass : Failure → FaultClass
  | .plaRead (.stream fault) => fault.faultClass
  | .plaRead _ => .invalidData
  | .plaWrite error => error.fault.faultClass
  | _ => .invalidInput

/-- The wording of a failure when it is passed on as a whole: faults of table
files stand for themselves. -/
def streamMessage : Failure → String
  | .plaRead error => error.cause
  | .plaWrite error => error.fault.message
  | failure => failure.report

/-- The class of a fault when it is passed on by its own part. -/
def ownClass? : Failure → Option FaultClass
  | .parse _ => some .invalidData
  | .plaRead (.format _) => some .invalidData
  | .plaRead _ => none
  | .plaWrite _ => none
  | _ => some .invalidInput

end Failure

end Switching
