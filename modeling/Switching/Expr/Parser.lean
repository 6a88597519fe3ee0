import Switching.Expr.Basic
import Switching.Expr.Lexer
import Switching.Expr.ParseError

/-!
# Reading expressions

The reader goes over the lexemes of a text once, from left to right.  It holds
the constructs that are still open in a stack of frames, and alternates
between two states: it waits for an operand, or it holds a finished operand
and waits for a connective, a closing parenthesis or the end.

Negation binds tightest, then `and`, `xor` and `or`; the connectives group to
the left.  The open parentheses and negations together are limited to
`maxNesting`.
-/

namespace Switching

/-- The number of parentheses and negations that may be open at once. -/
def maxNesting : Nat := 256

/-- How tightly a connective binds, from one for the loosest. -/
def Connective.precedence : Connective → Nat
  | .or => 1
  | .xor => 2
  | .and => 3

namespace Parser

/-- A construct whose rightmost operand is still to come. -/
inductive Frame
  | negation
  | paren
  | operation (left : Expr) (op : Connective)
  deriving DecidableEq, Repr

/-- The open constructs, innermost first. -/
abbrev Stack := List Frame

/-- Parentheses and negations count towards the nesting limit. -/
def Frame.nests : Frame → Bool
  | .negation => true
  | .paren => true
  | .operation _ _ => false

/-- The number of open parentheses and negations. -/
def depth (stack : Stack) : Nat :=
  stack.countP Frame.nests

/-- Close the negations that end with a finished operand. -/
def closeNegations : Stack → Expr → Stack × Expr
  | .negation :: stack, operand => closeNegations stack (.not operand)
  | stack, operand => (stack, operand)

/-- Close the operations that bind at least as tightly as `floor` and end with
a finished operand. -/
def closeOperations (floor : Nat) : Stack → Expr → Stack × Expr
  | .operation left op :: stack, right =>
      if floor ≤ op.precedence then closeOperations floor stack (.binary op left right)
      else (.operation left op :: stack, right)
  | stack, operand => (stack, operand)

/-- What the reader waits for: an operand, or what may follow the operand it
holds. -/
inductive State
  | operand (stack : Stack)
  | operator (stack : Stack) (value : Expr)
  deriving DecidableEq, Repr

/-- The state after an operand has been read. -/
def settle (stack : Stack) (operand : Expr) : State :=
  let (rest, value) := closeNegations stack operand
  .operator rest value

/-- Open a parenthesis or negation, if the nesting limit allows one more. -/
def enter (stack : Stack) (frame : Frame) (position : Nat) : Except ParseError State :=
  if depth stack < maxNesting then .ok (.operand (frame :: stack))
  else .error ⟨.nestedTooDeeply, position⟩

/-- Take a token where an operand is due. -/
def advanceOperand (stack : Stack) (token : Token) : Except ParseError State :=
  match token.kind with
  | .identifier => .ok (settle stack (.var token.text))
  | .constant => .ok (settle stack (.constant (token.text == "1")))
  | .not => enter stack .negation token.position
  | .leftParen => enter stack .paren token.position
  | .ending => .error ⟨.unexpectedEnd, token.position⟩
  | _ => .error ⟨.unexpectedToken token.text, token.position⟩

/-- The connective that a category of tokens stands for. -/
def connective? : TokenKind → Option Connective
  | .and => some .and
  | .or => some .or
  | .xor => some .xor
  | _ => none

/-- Report a token that cannot follow an operand: inside parentheses the
closing one is missing, outside the expression should have ended. -/
def misplaced (stack : Stack) (token : Token) : ParseError :=
  if stack.contains .paren then ⟨.unclosedParenthesis, token.position⟩
  else ⟨.trailingToken token.text, token.position⟩

/-- Take a token where an operand has just been finished. -/
def advanceOperator (stack : Stack) (value : Expr) (token : Token) :
    Except ParseError State :=
  match connective? token.kind with
  | some op =>
      let (rest, left) := closeOperations op.precedence stack value
      .ok (.operand (.operation left op :: rest))
  | none =>
      match token.kind, closeOperations 0 stack value with
      | .rightParen, (.paren :: rest, inner) => .ok (settle rest inner)
      | _, _ => .error (misplaced stack token)

/-- Take one lexeme. -/
def advance (state : State) : Lexeme → Except ParseError State
  | .stray c position => .error ⟨.unexpectedCharacter c, position⟩
  | .token token =>
      match state with
      | .operand stack => advanceOperand stack token
      | .operator stack value => advanceOperator stack value token

/-- Take the end of the text, which stands at the given byte offset. -/
def conclude (finish : Nat) : State → Except ParseError Expr
  | .operand _ => .error ⟨.unexpectedEnd, finish⟩
  | .operator stack value =>
      match closeOperations 0 stack value with
      | ([], expr) => .ok expr
      | _ => .error ⟨.unclosedParenthesis, finish⟩

/-- Read the lexemes of a text that ends at the given byte offset. -/
def run (finish : Nat) (state : State) (pending : List Lexeme) : Except ParseError Expr := do
  conclude finish (← pending.foldlM advance state)

end Parser

/-- Read an expression. -/
def parse (text : String) : Except ParseError Expr :=
  Parser.run (Text.utf8Length text.toList) (.operand []) (lexemes text)

end Switching
