import Switching.Expr.Parser

/-!
# Writing expressions

Expressions are written with as few parentheses as the precedences allow: an
operand is parenthesized when it binds looser than its place requires.  The
right operand of a connective has to bind tighter than the connective itself,
which keeps the grouping of equal connectives.
-/

namespace Switching

/-- The written form of a connective, with its spacing. -/
def Connective.symbol : Connective → String
  | .and => "・"
  | .or => " + "
  | .xor => " ⊕ "

/-- The written form of a constant. -/
def constantText (value : Bool) : String :=
  if value then "1" else "0"

namespace Expr

/-- The precedence that the operand of a negation requires. -/
def negationPrecedence : Nat := 4

/-- Write an expression for a place that requires the precedence `floor`. -/
def renderAt (floor : Nat) : Expr → String
  | .constant value => constantText value
  | .var name => name
  | .not operand => "¬" ++ operand.renderAt negationPrecedence
  | .binary op left right =>
      let text := left.renderAt op.precedence ++ op.symbol ++ right.renderAt (op.precedence + 1)
      if op.precedence < floor then "(" ++ text ++ ")" else text

/-- Write an expression. -/
def render (expr : Expr) : String :=
  expr.renderAt 0

/-- The number of parentheses and negations around the innermost point of the
text that `renderAt` writes. -/
def writtenNesting (floor : Nat) : Expr → Nat
  | .constant _ => 0
  | .var _ => 0
  | .not operand => operand.writtenNesting negationPrecedence + 1
  | .binary op left right =>
      let inner :=
        max (left.writtenNesting op.precedence) (right.writtenNesting (op.precedence + 1))
      if op.precedence < floor then inner + 1 else inner

end Expr

end Switching
