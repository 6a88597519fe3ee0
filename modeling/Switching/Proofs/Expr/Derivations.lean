import Switching.Expr.Grammar
import Switching.Expr.Parser

/-!
# The reader follows the grammar

A text is read as an expression exactly if its lexemes are tokens that derive
the expression.  From derivations to readings, what the reader does with the
tokens of an expression is stated for any stack on which the expression may be
put.  From readings to derivations, the tokens that have been read so far spell
the open constructs of the stack, and this invariant is kept by every lexeme.
-/

namespace Switching

open Grammar

namespace Grammar

/-! ## Levels and precedences -/

/-- The level of the expressions that bind at least as tightly as `floor`. -/
def levelFor : Nat → Level
  | 0 => .or
  | 1 => .or
  | 2 => .xor
  | 3 => .and
  | _ => .unary

variable {depth : Nat} {tokens : List Token} {expr : Expr}

theorem Derives.levelFor_of_succ {floor : Nat}
    (derives : Derives (levelFor (floor + 1)) depth tokens expr) :
    Derives (levelFor floor) depth tokens expr := by
  match floor with
  | 0 => exact derives
  | 1 => exact .difference derives
  | 2 => exact .product derives
  | 3 => exact .unary derives
  | _ + 4 => exact derives

/-- What binds more tightly than needed may stand as well. -/
theorem Derives.loosen {floor higher : Nat} (derives : Derives (levelFor higher) depth tokens expr)
    (le : floor ≤ higher) : Derives (levelFor floor) depth tokens expr := by
  induction le with
  | refl => exact derives
  | step _ ih => exact ih derives.levelFor_of_succ

theorem Derives.levelFor_of_unary (derives : Derives .unary depth tokens expr) (floor : Nat) :
    Derives (levelFor floor) depth tokens expr := by
  by_cases low : floor ≤ 4
  · have tight : Derives (levelFor 4) depth tokens expr := derives
    exact tight.loosen low
  · obtain ⟨above, rfl⟩ : ∃ above, floor = above + 4 := ⟨floor - 4, by omega⟩
    exact derives

theorem kind_of_connective? {kind : TokenKind} {op : Connective}
    (connects : Parser.connective? kind = some op) :
    kind = match op with
      | .and => .and
      | .or => .or
      | .xor => .xor := by
  cases kind <;> cases connects <;> rfl

/-- The left operand of a connective binds at least as tightly as the
connective and the right one more tightly. -/
theorem Derives.binary {op : Connective} {token : Token} {front back : List Token}
    {left right : Expr} (connects : Parser.connective? token.kind = some op)
    (derivesLeft : Derives (levelFor op.precedence) depth front left)
    (derivesRight : Derives (levelFor (op.precedence + 1)) depth back right) :
    Derives (levelFor op.precedence) depth (front ++ token :: back) (.binary op left right) := by
  have kind_eq := kind_of_connective? connects
  cases op with
  | and => exact .and kind_eq derivesLeft derivesRight
  | or => exact .or kind_eq derivesLeft derivesRight
  | xor => exact .xor kind_eq derivesLeft derivesRight

end Grammar

namespace Parser

variable {stack : Stack} {token : Token} {tokens front back : List Token} {expr value : Expr}
  {state final : State} {floor higher limit : Nat}

/-! ## Stacks -/

/-- A stack that holds an operand of precedence `floor` back: its innermost
construct is neither a negation nor an operation that binds as tightly. -/
def Settled (floor : Nat) : Stack → Prop
  | .negation :: _ => False
  | .operation _ op :: _ => op.precedence < floor
  | .paren :: _ => True
  | [] => True

theorem Settled.mono (settled : Settled floor stack) (le : floor ≤ higher) :
    Settled higher stack := by
  match stack with
  | [] => trivial
  | .paren :: _ => trivial
  | .negation :: _ => exact settled.elim
  | .operation _ op :: _ => exact Nat.lt_of_lt_of_le settled le

theorem closeNegations_of_settled (settled : Settled floor stack) :
    closeNegations stack expr = (stack, expr) := by
  match stack with
  | [] => rfl
  | .paren :: _ => rfl
  | .negation :: _ => exact settled.elim
  | .operation _ _ :: _ => rfl

theorem settle_of_settled (settled : Settled floor stack) :
    settle stack expr = .operator stack expr := by
  rw [settle, closeNegations_of_settled settled]

theorem closeOperations_of_settled (settled : Settled floor stack) :
    closeOperations floor stack expr = (stack, expr) := by
  match stack with
  | [] => rfl
  | .paren :: _ => rfl
  | .negation :: _ => rfl
  | .operation _ op :: _ => rw [closeOperations, if_neg (Nat.not_le_of_lt settled)]

theorem closeOperations_operation {left right : Expr} {op : Connective}
    (closes : floor ≤ op.precedence) :
    closeOperations floor (.operation left op :: stack) right =
      closeOperations floor stack (.binary op left right) := by
  rw [closeOperations, if_pos closes]

/-- Closing the tighter operations first makes no difference. -/
theorem closeOperations_closeOperations (le : floor ≤ higher) (stack : Stack) (value : Expr) :
    closeOperations floor (closeOperations higher stack value).1
        (closeOperations higher stack value).2 = closeOperations floor stack value := by
  fun_induction closeOperations higher stack value with
  | case1 left op stack right tight ih =>
      rw [ih, closeOperations_operation (Nat.le_trans le tight)]
  | case2 left op stack right loose => rfl
  | case3 stack operand other => rfl

/-! ## Readings -/

/-- Take several tokens. -/
def takeTokens (state : State) (tokens : List Token) : Except ParseError State :=
  (tokens.map Lexeme.token).foldlM advance state

theorem takeTokens_cons (state : State) (token : Token) (tokens : List Token) :
    takeTokens state (token :: tokens) =
      advance state (.token token) >>= (takeTokens · tokens) := by
  rw [takeTokens, List.map_cons, List.foldlM_cons]
  rfl

theorem takeTokens_append (state : State) (front back : List Token) :
    takeTokens state (front ++ back) = takeTokens state front >>= (takeTokens · back) := by
  rw [takeTokens, List.map_append, List.foldlM_append]
  rfl

/-- The reader takes the tokens of an expression in such a way that closing the
operations of precedence `floor` leaves the expression on the stack. -/
def Reads (floor : Nat) (stack : Stack) (tokens : List Token) (expr : Expr) : Prop :=
  ∃ rest value, takeTokens (.operand stack) tokens = .ok (.operator rest value) ∧
    closeOperations floor rest value = (stack, expr)

theorem Reads.loosen (reads : Reads higher stack tokens expr) (le : floor ≤ higher)
    (settled : Settled floor stack) : Reads floor stack tokens expr := by
  obtain ⟨rest, value, taken, closed⟩ := reads
  refine ⟨rest, value, taken, ?_⟩
  rw [← closeOperations_closeOperations le, closed]
  exact closeOperations_of_settled settled

theorem Reads.ofSettle (taken : takeTokens (.operand stack) tokens = .ok (settle stack expr))
    (settled : Settled floor stack) : Reads floor stack tokens expr := by
  rw [settle_of_settled settled] at taken
  exact ⟨stack, expr, taken, closeOperations_of_settled settled⟩

/-- A connective takes what has been closed for it as its left operand. -/
theorem Reads.binary {op : Connective} {left right : Expr}
    (connects : connective? token.kind = some op)
    (readsLeft : Reads op.precedence stack front left)
    (readsRight : Reads (op.precedence + 1) (.operation left op :: stack) back right)
    (settled : Settled op.precedence stack) :
    Reads op.precedence stack (front ++ token :: back) (.binary op left right) := by
  obtain ⟨leftRest, leftValue, takenLeft, closedLeft⟩ := readsLeft
  obtain ⟨rest, value, taken, closed⟩ := readsRight
  refine ⟨rest, value, ?_, ?_⟩
  · rw [takeTokens_append, takenLeft]
    change takeTokens (.operator leftRest leftValue) (token :: back) = _
    have advanced : advance (.operator leftRest leftValue) (.token token) =
        .ok (.operand (.operation left op :: stack)) := by
      simp only [advance, advanceOperator, connects, closedLeft]
    rw [takeTokens_cons, advanced]
    exact taken
  · rw [← closeOperations_closeOperations (Nat.le_succ op.precedence), closed,
      closeOperations_operation (Nat.le_refl _)]
    exact closeOperations_of_settled settled

/-- What the reader does with the tokens of an expression of some level. -/
def ReadsAt : Level → Stack → List Token → Expr → Prop
  | .or, stack, tokens, expr =>
      Settled Connective.or.precedence stack → Reads Connective.or.precedence stack tokens expr
  | .xor, stack, tokens, expr =>
      Settled Connective.xor.precedence stack → Reads Connective.xor.precedence stack tokens expr
  | .and, stack, tokens, expr =>
      Settled Connective.and.precedence stack → Reads Connective.and.precedence stack tokens expr
  | .unary, stack, tokens, expr => takeTokens (.operand stack) tokens = .ok (settle stack expr)
  | .atom, stack, tokens, expr => takeTokens (.operand stack) tokens = .ok (settle stack expr)

theorem advance_opening {frame : Frame} (room : depth stack < maxNesting)
    (opens : token.kind = .not ∧ frame = .negation ∨ token.kind = .leftParen ∧ frame = .paren) :
    advance (.operand stack) (.token token) = .ok (.operand (frame :: stack)) := by
  rcases opens with ⟨kind, rfl⟩ | ⟨kind, rfl⟩ <;>
    simp only [advance, advanceOperand, kind, enter, if_pos room]

/-- An expression in parentheses is settled once they are closed. -/
theorem takeTokens_paren {opening closing : Token} (below : depth stack < maxNesting)
    (opens : opening.kind = .leftParen) (closes : closing.kind = .rightParen)
    (reads : Reads 0 (.paren :: stack) tokens expr) :
    takeTokens (.operand stack) (opening :: (tokens ++ [closing])) = .ok (settle stack expr) := by
  obtain ⟨rest, value, taken, closed⟩ := reads
  have advanced : advance (.operator rest value) (.token closing) = .ok (settle stack expr) := by
    simp only [advance, advanceOperator, closes, connective?, closed]
  rw [takeTokens_cons, advance_opening below (.inr ⟨opens, rfl⟩)]
  change takeTokens (.operand (.paren :: stack)) (tokens ++ [closing]) = _
  rw [takeTokens_append, taken]
  change takeTokens (.operator rest value) [closing] = _
  rw [takeTokens_cons, advanced]
  rfl

/-- The tokens of a derivation are read on every stack with room for their
nesting. -/
theorem readsAt_of_derives {level : Level} {nesting : Nat}
    (derives : Derives level nesting tokens expr) :
    ∀ {stack : Stack}, depth stack + nesting ≤ maxNesting → ReadsAt level stack tokens expr := by
  induction derives with
  | identifier kind | constant kind =>
      intro stack room
      simp only [ReadsAt, takeTokens_cons, advance, advanceOperand, kind]
      rfl
  | @paren nesting opening closing inner expr opens closes _ ih =>
      intro stack room
      have depth_eq : depth (.paren :: stack) = depth stack + 1 := List.countP_cons_of_pos rfl
      have reads : Reads 1 (.paren :: stack) inner expr := ih (by omega) trivial
      exact takeTokens_paren (by omega) opens closes (reads.loosen (Nat.zero_le 1) trivial)
  | atom _ ih => exact fun room => ih room
  | @not nesting token tokens expr kind _ ih =>
      intro stack room
      have depth_eq : depth (.negation :: stack) = depth stack + 1 := List.countP_cons_of_pos rfl
      rw [ReadsAt, takeTokens_cons, advance_opening (by omega) (.inl ⟨kind, rfl⟩)]
      exact ih (by omega)
  | unary _ ih => exact fun room settled => .ofSettle (ih room) settled
  | product _ ih | difference _ ih =>
      intro stack room settled
      exact (ih room (settled.mono (by decide))).loosen (by decide) settled
  | and kind _ _ ihLeft ihRight =>
      intro stack room settled
      exact .binary (by rw [kind]; rfl) (ihLeft room settled)
        (.ofSettle (ihRight room) (Nat.lt_succ_self _)) settled
  | xor kind _ _ ihLeft ihRight | or kind _ _ ihLeft ihRight =>
      intro stack room settled
      exact .binary (by rw [kind]; rfl) (ihLeft room settled)
        (ihRight room (Nat.lt_succ_self _)) settled

/-- The tokens of a derivation are read as the derived expression. -/
theorem run_eq_ok_of_derives (finish : Nat) (derives : Derives .or maxNesting tokens expr) :
    run finish (.operand []) (tokens.map .token) = .ok expr := by
  have room : depth [] + maxNesting ≤ maxNesting := Nat.le_of_eq (Nat.zero_add _)
  have reads : Reads 1 [] tokens expr := readsAt_of_derives derives room trivial
  obtain ⟨rest, value, taken, closed⟩ := reads.loosen (Nat.zero_le 1) trivial
  have run_eq : run finish (.operand []) (tokens.map .token) =
      takeTokens (.operand []) tokens >>= conclude finish := rfl
  rw [run_eq, taken]
  change conclude finish (.operator rest value) = .ok expr
  rw [conclude, closed]

/-! ## Spelled stacks -/

/-- The nesting that a stack leaves room for. -/
def room (stack : Stack) : Nat :=
  maxNesting - depth stack

/-- `Spells stack tokens` says that the tokens open the constructs of the stack
and give their finished operands. -/
inductive Spells : Stack → List Token → Prop
  | nil : Spells [] []
  | negation {stack : Stack} {tokens : List Token} {token : Token}
      (spells : Spells stack tokens) (below : depth stack < maxNesting)
      (kind : token.kind = .not) : Spells (.negation :: stack) (tokens ++ [token])
  | paren {stack : Stack} {tokens : List Token} {token : Token}
      (spells : Spells stack tokens) (below : depth stack < maxNesting)
      (kind : token.kind = .leftParen) : Spells (.paren :: stack) (tokens ++ [token])
  | operation {stack : Stack} {front back : List Token} {token : Token} {left : Expr}
      {op : Connective} (spells : Spells stack front) (settled : Settled op.precedence stack)
      (derives : Derives (levelFor op.precedence) (room stack) back left)
      (connects : connective? token.kind = some op) :
      Spells (.operation left op :: stack) (front ++ back ++ [token])

/-- The tokens spell a stack and then derive an operand for it. -/
def SpellsOperand (floor : Nat) (stack : Stack) (expr : Expr) (tokens : List Token) : Prop :=
  ∃ front back, tokens = front ++ back ∧ Spells stack front ∧ Settled floor stack ∧
    Derives (levelFor floor) (room stack) back expr

/-- The tokens that lead to a state. -/
def State.Spelled : State → List Token → Prop
  | .operand stack, tokens => Spells stack tokens
  | .operator stack value, tokens => SpellsOperand 4 stack value tokens

theorem room_cons (frame : Frame) (nests : frame.nests = true)
    (below : depth stack < maxNesting) : room stack = room (frame :: stack) + 1 := by
  have depth_eq : depth (frame :: stack) = depth stack + 1 := List.countP_cons_of_pos nests
  unfold room
  omega

/-- Closing the negations in front of an operand derives the negated operand. -/
theorem spelled_settle (spells : Spells stack front) (derives : Derives .unary (room stack) back expr) :
    (settle stack expr).Spelled (front ++ back) := by
  induction spells generalizing back expr with
  | nil => exact ⟨[], back, rfl, .nil, trivial, derives⟩
  | @negation stack tokens token spells below kind ih =>
      have negated : Derives .unary (room stack) (token :: back) (.not expr) := by
        rw [room_cons .negation rfl below]
        exact .not kind derives
      rw [List.append_assoc]
      exact ih negated
  | paren spells below kind =>
      exact ⟨_, back, rfl, .paren spells below kind, trivial, derives⟩
  | @operation stack front middle token left op spells settled derivesLeft connects =>
      refine ⟨_, back, rfl, .operation spells settled derivesLeft connects, ?_, derives⟩
      change op.precedence < 4
      cases op <;> decide

/-- Closing the operations that end with an operand derives the expression that
they build. -/
theorem spellsOperand_closeOperations (le : floor ≤ higher)
    (spelled : SpellsOperand higher stack expr tokens) :
    SpellsOperand floor (closeOperations floor stack expr).1 (closeOperations floor stack expr).2
      tokens := by
  fun_induction closeOperations floor stack expr generalizing higher with
  | case1 left op stack right closes ih =>
      obtain ⟨_, back, rfl, spells, looser, derives⟩ := spelled
      cases spells with
      | @operation _ front middle token _ _ spells settled derivesLeft connects =>
          -- What is left behind the symbol of the operation is its right operand.
          have derivesRight : Derives (levelFor (op.precedence + 1)) (room stack) back right :=
            derives.loosen looser
          refine ih closes ⟨front, middle ++ token :: back, ?_, spells, settled,
            derivesLeft.binary connects derivesRight⟩
          simp
  | case2 left op stack right stays =>
      obtain ⟨front, back, rfl, spells, -, derives⟩ := spelled
      exact ⟨front, back, rfl, spells, Nat.lt_of_not_le stays, derives.loosen le⟩
  | case3 stack operand other =>
      obtain ⟨front, back, rfl, spells, settled, derives⟩ := spelled
      refine ⟨front, back, rfl, spells, ?_, derives.loosen le⟩
      match stack with
      | [] => trivial
      | .paren :: _ => trivial
      | .negation :: _ => exact settled.elim
      | .operation left op :: stack => exact (other left op stack rfl).elim

theorem spelled_enter {frame : Frame} {position : Nat}
    (spells : depth stack < maxNesting → Spells (frame :: stack) tokens)
    (entered : enter stack frame position = .ok state) : state.Spelled tokens := by
  unfold enter at entered
  split at entered
  · rename_i below
    cases entered
    exact spells below
  · cases entered

theorem spelled_advanceOperand (spells : Spells stack tokens)
    (advanced : advanceOperand stack token = .ok state) : state.Spelled (tokens ++ [token]) := by
  unfold advanceOperand at advanced
  split at advanced
  · rename_i kind
    cases advanced
    exact spelled_settle spells (.atom (.identifier kind))
  · rename_i kind
    cases advanced
    exact spelled_settle spells (.atom (.constant kind))
  · rename_i kind
    exact spelled_enter (fun below => .negation spells below kind) advanced
  · rename_i kind
    exact spelled_enter (fun below => .paren spells below kind) advanced
  · cases advanced
  · cases advanced

theorem spelled_advanceOperator (spelled : SpellsOperand 4 stack value tokens)
    (advanced : advanceOperator stack value token = .ok state) :
    state.Spelled (tokens ++ [token]) := by
  unfold advanceOperator at advanced
  split at advanced
  · rename_i op connects
    cases advanced
    have le : op.precedence ≤ 4 := by cases op <;> decide
    obtain ⟨front, back, rfl, spells, settled, derives⟩ := spellsOperand_closeOperations le spelled
    exact .operation spells settled derives connects
  · have closed := spellsOperand_closeOperations (Nat.zero_le 4) spelled
    split at advanced
    · rename_i rest inner kind close_eq
      cases advanced
      rw [close_eq] at closed
      obtain ⟨_, back, rfl, spells, -, derives⟩ := closed
      cases spells with
      | @paren _ front opening spells below opens =>
          have derivesParen : Derives .atom (room rest) (opening :: (back ++ [token])) inner := by
            rw [room_cons .paren rfl below]
            exact .paren opens kind derives
          have read_eq : front ++ [opening] ++ back ++ [token] =
              front ++ (opening :: (back ++ [token])) := by simp
          rw [read_eq]
          exact spelled_settle spells (.atom derivesParen)
    · cases advanced

/-- Taking a lexeme keeps the state spelled, and the lexeme is a token. -/
theorem spelled_advance {lexeme : Lexeme} (spelled : state.Spelled tokens)
    (advanced : advance state lexeme = .ok final) :
    ∃ token, lexeme = .token token ∧ final.Spelled (tokens ++ [token]) := by
  cases lexeme with
  | stray char position => cases advanced
  | token token =>
      refine ⟨token, rfl, ?_⟩
      cases state with
      | operand stack => exact spelled_advanceOperand spelled advanced
      | operator stack value => exact spelled_advanceOperator spelled advanced

theorem derives_of_conclude {finish : Nat} (spelled : state.Spelled tokens)
    (concluded : conclude finish state = .ok expr) : Derives .or maxNesting tokens expr := by
  cases state with
  | operand stack => cases concluded
  | operator stack value =>
      have closed := spellsOperand_closeOperations (Nat.zero_le 4) spelled
      simp only [conclude] at concluded
      split at concluded
      · rename_i close_eq
        cases concluded
        rw [close_eq] at closed
        obtain ⟨front, back, rfl, spells, -, derives⟩ := closed
        cases spells
        exact derives
      · cases concluded

/-- What is read consists of tokens that derive the result. -/
theorem derives_of_run_eq_ok {finish : Nat} {pending : List Lexeme} (spelled : state.Spelled tokens)
    (ran : run finish state pending = .ok expr) :
    ∃ later, pending = later.map .token ∧ Derives .or maxNesting (tokens ++ later) expr := by
  induction pending generalizing state tokens with
  | nil =>
      refine ⟨[], rfl, ?_⟩
      rw [List.append_nil]
      exact derives_of_conclude spelled ran
  | cons lexeme rest ih =>
      rw [run, List.foldlM_cons] at ran
      cases advanced : advance state lexeme with
      | error error =>
          rw [advanced] at ran
          cases ran
      | ok next =>
          rw [advanced] at ran
          obtain ⟨token, rfl, nextSpelled⟩ := spelled_advance spelled advanced
          obtain ⟨later, rfl, derives⟩ := ih nextSpelled ran
          refine ⟨token :: later, rfl, ?_⟩
          rwa [List.append_cons]

end Parser

/-- The lexemes that a reader accepts are the tokens of the derivations of the
result. -/
theorem Parser.run_eq_ok_iff {finish : Nat} {pending : List Lexeme} {expr : Expr} :
    run finish (.operand []) pending = .ok expr ↔
      ∃ tokens, pending = tokens.map .token ∧ Derives .or maxNesting tokens expr := by
  constructor
  · intro ran
    have start : (State.operand []).Spelled [] := Spells.nil
    exact derives_of_run_eq_ok start ran
  · rintro ⟨tokens, rfl, derives⟩
    exact run_eq_ok_of_derives finish derives

/-- A text is read as an expression exactly if all of its lexemes are tokens and
the tokens derive the expression within the nesting limit. -/
theorem parse_eq_ok_iff_derives (text : String) (expr : Expr) :
    parse text = .ok expr ↔
      ∃ tokens, lexemes text = tokens.map .token ∧ Derives .or maxNesting tokens expr :=
  Parser.run_eq_ok_iff

end Switching
