import Switching.Cube.Basic
import Switching.Expr.Basic

/-!
# Two-level forms

A list of cubes is read as a sum of products or, as a cover of the inverted
function, as a product of sums.  Both readings are given as text and as an
expression.
-/

namespace Switching

/-- The two two-level forms. -/
inductive Form
  | sumOfProducts
  | productOfSums
  deriving DecidableEq, Repr, Inhabited

namespace Form

/-- The short name of a form. -/
def name : Form → String
  | .sumOfProducts => "SOP"
  | .productOfSums => "POS"

/-- The literals of a cube: the names at its fixed places, with the polarity
that the form gives them. -/
def literals (form : Form) (cube : Cube) (inputs : List String) : List (String × Bool) :=
  let positive : Trit := match form with
    | .sumOfProducts => .one
    | .productOfSums => .zero
  ((cube.zip inputs).filter fun (place, _) => place ≠ .dash).map fun (place, name) =>
    (name, place = positive)

/-- A literal as text. -/
def literalText (literal : String × Bool) : String :=
  if literal.2 then literal.1 else "¬" ++ literal.1

/-- A product of literals as text; the empty product is one. -/
def productText (literals : List (String × Bool)) : String :=
  if literals.isEmpty then "1"
  else String.intercalate "・" (literals.map literalText)

/-- A sum of literals as text; the empty sum is zero, and a sum of several
literals stands in parentheses. -/
def sumText : List (String × Bool) → String
  | [] => "0"
  | [literal] => literalText literal
  | literals => "(" ++ String.intercalate " + " (literals.map literalText) ++ ")"

/-- A list of cubes as text. -/
def render (form : Form) (cubes : List Cube) (inputs : List String) : String :=
  match form with
  | .sumOfProducts =>
      if cubes.isEmpty then "0"
      else String.intercalate " + "
        (cubes.map fun cube => productText (form.literals cube inputs))
  | .productOfSums =>
      if cubes.isEmpty then "1"
      else String.intercalate "・"
        (cubes.map fun cube => sumText (form.literals cube inputs))

/-- The inner and the outer connective of a form. -/
def connectives : Form → Connective × Connective
  | .sumOfProducts => (.and, .or)
  | .productOfSums => (.or, .and)

/-- The value of an empty inner term; an empty list of terms has the opposite
value. -/
def emptyTerm : Form → Bool
  | .sumOfProducts => true
  | .productOfSums => false

/-- The expression of a cube. -/
def term (form : Form) (inputs : List String) (cube : Cube) : Expr :=
  Expr.chainD form.connectives.1 form.emptyTerm
    ((form.literals cube inputs).map fun (name, positive) => Expr.literal name positive)

/-- The expression of a list of cubes. -/
def toExpr (form : Form) (cubes : List Cube) (inputs : List String) : Expr :=
  Expr.chainD form.connectives.2 (!form.emptyTerm) (cubes.map (form.term inputs))

end Form

end Switching
