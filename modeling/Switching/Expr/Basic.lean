/-!
# Boolean expressions

Expressions are finite trees over constants, named variables, negation and
three binary connectives.
-/

namespace Switching

/-- The binary connectives. -/
inductive Connective
  | and
  | or
  | xor
  deriving DecidableEq, Repr, Inhabited

namespace Connective

/-- The lower-case name of a connective. -/
def name : Connective → String
  | .and => "and"
  | .or => "or"
  | .xor => "xor"

/-- The Boolean function of a connective. -/
def apply : Connective → Bool → Bool → Bool
  | .and, left, right => left && right
  | .or, left, right => left || right
  | .xor, left, right => left != right

end Connective

/-- Boolean expression trees. -/
inductive Expr
  | constant (value : Bool)
  | var (name : String)
  | not (operand : Expr)
  | binary (op : Connective) (left right : Expr)
  deriving DecidableEq, Repr, Inhabited

namespace Expr

/-- The conjunction of two expressions. -/
def and (left right : Expr) : Expr := .binary .and left right

/-- The disjunction of two expressions. -/
def or (left right : Expr) : Expr := .binary .or left right

/-- The exclusive disjunction of two expressions. -/
def xor (left right : Expr) : Expr := .binary .xor left right

/-- Join operands by one connective, grouping to the left; there is no
expression for an empty list of operands. -/
def chain? (op : Connective) : List Expr → Option Expr
  | [] => none
  | first :: rest => some (rest.foldl (.binary op) first)

/-- Join operands by one connective, or give `unit` if there are none. -/
def chainD (op : Connective) (unit : Bool) (operands : List Expr) : Expr :=
  (chain? op operands).getD (.constant unit)

/-- A variable or its negation. -/
def literal (name : String) (positive : Bool) : Expr :=
  if positive then .var name else .not (.var name)

/-- The variable occurrences of an expression, from left to right. -/
def occurrences : Expr → List String
  | .constant _ => []
  | .var name => [name]
  | .not operand => operand.occurrences
  | .binary _ left right => left.occurrences ++ right.occurrences

/-- The distinct variables of an expression, in the order of their first
occurrences. -/
def vars (expr : Expr) : List String :=
  expr.occurrences.eraseDups

/-- The number of connectives and negations on the longest path from the root
to a leaf. -/
def height : Expr → Nat
  | .constant _ => 0
  | .var _ => 0
  | .not operand => operand.height + 1
  | .binary _ left right => max left.height right.height + 1

end Expr

end Switching
