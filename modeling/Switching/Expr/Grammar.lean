import Switching.Expr.Basic
import Switching.Expr.Token

/-!
# The grammar of expressions

The grammar has one level for each connective, one for negations and one for
atoms:

    or    ::= xor | or OR xor
    xor   ::= and | xor XOR and
    and   ::= unary | and AND unary
    unary ::= atom | NOT unary
    atom  ::= NAME | CONSTANT | ( or )

`Derives level depth tokens expr` says that the tokens derive the expression
at the level, with at most `depth` parentheses and negations around any
point.
-/

namespace Switching.Grammar

/-- The levels of the grammar. -/
inductive Level
  | or
  | xor
  | and
  | unary
  | atom
  deriving DecidableEq, Repr

/-- The derivations of the grammar. -/
inductive Derives : Level → Nat → List Token → Expr → Prop
  | identifier {depth : Nat} {token : Token} (kind : token.kind = .identifier) :
      Derives .atom depth [token] (.var token.text)
  | constant {depth : Nat} {token : Token} (kind : token.kind = .constant) :
      Derives .atom depth [token] (.constant (token.text == "1"))
  | paren {depth : Nat} {opening closing : Token} {inner : List Token} {expr : Expr}
      (opens : opening.kind = .leftParen) (closes : closing.kind = .rightParen)
      (derives : Derives .or depth inner expr) :
      Derives .atom (depth + 1) (opening :: (inner ++ [closing])) expr
  | atom {depth : Nat} {tokens : List Token} {expr : Expr}
      (derives : Derives .atom depth tokens expr) : Derives .unary depth tokens expr
  | not {depth : Nat} {token : Token} {tokens : List Token} {expr : Expr}
      (kind : token.kind = .not) (derives : Derives .unary depth tokens expr) :
      Derives .unary (depth + 1) (token :: tokens) (.not expr)
  | unary {depth : Nat} {tokens : List Token} {expr : Expr}
      (derives : Derives .unary depth tokens expr) : Derives .and depth tokens expr
  | and {depth : Nat} {token : Token} {front back : List Token} {left right : Expr}
      (kind : token.kind = .and) (derivesLeft : Derives .and depth front left)
      (derivesRight : Derives .unary depth back right) :
      Derives .and depth (front ++ token :: back) (.binary .and left right)
  | product {depth : Nat} {tokens : List Token} {expr : Expr}
      (derives : Derives .and depth tokens expr) : Derives .xor depth tokens expr
  | xor {depth : Nat} {token : Token} {front back : List Token} {left right : Expr}
      (kind : token.kind = .xor) (derivesLeft : Derives .xor depth front left)
      (derivesRight : Derives .and depth back right) :
      Derives .xor depth (front ++ token :: back) (.binary .xor left right)
  | difference {depth : Nat} {tokens : List Token} {expr : Expr}
      (derives : Derives .xor depth tokens expr) : Derives .or depth tokens expr
  | or {depth : Nat} {token : Token} {front back : List Token} {left right : Expr}
      (kind : token.kind = .or) (derivesLeft : Derives .or depth front left)
      (derivesRight : Derives .xor depth back right) :
      Derives .or depth (front ++ token :: back) (.binary .or left right)

/-- A derivation may allow more nesting than it needs. -/
theorem Derives.mono {level : Level} {depth : Nat} {tokens : List Token} {expr : Expr}
    (derives : Derives level depth tokens expr) :
    ∀ {limit : Nat}, depth ≤ limit → Derives level limit tokens expr := by
  induction derives with
  | identifier kind => exact fun _ => .identifier kind
  | constant kind => exact fun _ => .constant kind
  | paren opens closes _ ih =>
      intro limit le
      obtain ⟨limit, rfl⟩ : ∃ below, limit = below + 1 := ⟨limit - 1, by omega⟩
      exact .paren opens closes (ih (by omega))
  | atom _ ih => exact fun le => .atom (ih le)
  | not kind _ ih =>
      intro limit le
      obtain ⟨limit, rfl⟩ : ∃ below, limit = below + 1 := ⟨limit - 1, by omega⟩
      exact .not kind (ih (by omega))
  | unary _ ih => exact fun le => .unary (ih le)
  | and kind _ _ ihLeft ihRight => exact fun le => .and kind (ihLeft le) (ihRight le)
  | product _ ih => exact fun le => .product (ih le)
  | xor kind _ _ ihLeft ihRight => exact fun le => .xor kind (ihLeft le) (ihRight le)
  | difference _ ih => exact fun le => .difference (ih le)
  | or kind _ _ ihLeft ihRight => exact fun le => .or kind (ihLeft le) (ihRight le)

end Switching.Grammar
