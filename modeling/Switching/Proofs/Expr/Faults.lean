import Switching.Proofs.Expr.Cuts
import Switching.Proofs.Expr.Derivations

/-!
# Parse errors show where the text goes wrong

The reader reports an error at the first lexeme that no expression can go on with.
What it has read before is the beginning of some expression: in every state it is
enough to give the operand that is still due and to close the open parentheses.
The lexeme itself cannot be saved by anything that follows it, since whether the
reader takes a lexeme depends on the state and on the kind of the lexeme only.
-/

namespace Switching

open Grammar

namespace Parser

variable {stack : Stack} {value : Expr} {state final : State} {token : Token}
  {tokens : List Token} {lexeme other : Lexeme} {pending front back : List Lexeme}
  {error : ParseError} {finish : Nat}

/-! ## Refused lexemes -/

theorem enter_eq_error_iff {frame : Frame} {position : Nat} :
    enter stack frame position = .error error ↔
      maxNesting ≤ depth stack ∧ error = ⟨.nestedTooDeeply, position⟩ := by
  unfold enter
  by_cases below : depth stack < maxNesting
  · simp [below, Nat.not_le_of_lt below]
  · simp [below, Nat.le_of_not_lt below, eq_comm]

/-- A lexeme that is refused is reported where it stands. -/
theorem position_of_advance_eq_error (failed : advance state lexeme = .error error) :
    error.position = lexeme.position := by
  cases lexeme with
  | stray char position =>
      cases failed
      rfl
  | token token =>
      cases state with
      | operand stack =>
          simp only [advance, advanceOperand] at failed
          split at failed
          · cases failed
          · cases failed
          · rcases enter_eq_error_iff.mp failed with ⟨-, rfl⟩
            rfl
          · rcases enter_eq_error_iff.mp failed with ⟨-, rfl⟩
            rfl
          · cases failed
            rfl
          · cases failed
            rfl
      | operator stack value =>
          simp only [advance, advanceOperator, misplaced] at failed
          split at failed
          · cases failed
          · split at failed
            · cases failed
            · split at failed <;> cases failed <;> rfl

/-- Where an operand is due, what is refused and what is taken are told apart by
their kinds. -/
theorem exists_advanceOperand_eq_error {token other : Token} (kind_eq : other.kind = token.kind)
    (failed : advanceOperand stack token = .error error) :
    ∃ otherError, advanceOperand stack other = .error otherError := by
  unfold advanceOperand at failed ⊢
  rw [kind_eq]
  split at failed
  · cases failed
  · cases failed
  · rcases enter_eq_error_iff.mp failed with ⟨full, -⟩
    exact ⟨_, enter_eq_error_iff.mpr ⟨full, rfl⟩⟩
  · rcases enter_eq_error_iff.mp failed with ⟨full, -⟩
    exact ⟨_, enter_eq_error_iff.mpr ⟨full, rfl⟩⟩
  · exact ⟨_, rfl⟩
  · exact ⟨_, rfl⟩

theorem exists_advanceOperator_eq_error {token other : Token} (kind_eq : other.kind = token.kind)
    (failed : advanceOperator stack value token = .error error) :
    ∃ otherError, advanceOperator stack value other = .error otherError := by
  unfold advanceOperator at failed ⊢
  rw [kind_eq]
  split at failed
  · cases failed
  · split at failed
    · cases failed
    · exact ⟨_, rfl⟩

/-- A lexeme of the same kind as one that is refused is refused. -/
theorem exists_advance_eq_error (kind_eq : other.kind? = lexeme.kind?)
    (failed : advance state lexeme = .error error) :
    ∃ otherError, advance state other = .error otherError := by
  cases other with
  | stray char position => exact ⟨_, rfl⟩
  | token token =>
      cases lexeme with
      | stray char position => cases kind_eq
      | token refused =>
          have kinds : token.kind = refused.kind := Option.some.inj kind_eq
          cases state with
          | operand stack => exact exists_advanceOperand_eq_error kinds failed
          | operator stack value => exact exists_advanceOperator_eq_error kinds failed

/-- A reading fails at one of the lexemes or at the end. -/
theorem run_eq_error_cases (failed : run finish state pending = .error error) :
    (∃ front lexeme back reached, pending = front ++ lexeme :: back ∧
      front.foldlM advance state = .ok reached ∧ advance reached lexeme = .error error) ∨
    ∃ reached, pending.foldlM advance state = .ok reached ∧
      conclude finish reached = .error error := by
  induction pending generalizing state with
  | nil => exact .inr ⟨state, rfl, failed⟩
  | cons lexeme rest ih =>
      rw [run, List.foldlM_cons] at failed
      cases advanced : advance state lexeme with
      | error found =>
          rw [advanced] at failed
          cases failed
          exact .inl ⟨[], lexeme, rest, state, rfl, rfl, advanced⟩
      | ok next =>
          rw [advanced] at failed
          rcases ih failed with
            ⟨front, later, back, reached, rfl, taken, refused⟩ | ⟨reached, taken, ended⟩
          · refine .inl ⟨lexeme :: front, later, back, reached, rfl, ?_, refused⟩
            rw [List.foldlM_cons, advanced]
            exact taken
          · refine .inr ⟨reached, ?_, ended⟩
            rw [List.foldlM_cons, advanced]
            exact taken

theorem run_append (taken : front.foldlM advance state = .ok final) (finish : Nat)
    (back : List Lexeme) : run finish state (front ++ back) = run finish final back := by
  rw [run, List.foldlM_append, taken]
  rfl

theorem position_of_conclude_eq_error (failed : conclude finish state = .error error) :
    error.position = finish := by
  cases state with
  | operand stack =>
      cases failed
      rfl
  | operator stack value =>
      simp only [conclude] at failed
      split at failed <;> cases failed
      rfl

/-! ## Completions -/

theorem spelled_foldlM (spelled : state.Spelled tokens)
    (taken : pending.foldlM advance state = .ok final) : ∃ tokens, final.Spelled tokens := by
  induction pending generalizing state tokens with
  | nil =>
      cases taken
      exact ⟨tokens, spelled⟩
  | cons lexeme rest ih =>
      rw [List.foldlM_cons] at taken
      cases advanced : advance state lexeme with
      | error found =>
          rw [advanced] at taken
          cases taken
      | ok next =>
          rw [advanced] at taken
          rcases spelled_advance spelled advanced with ⟨token, -, nextSpelled⟩
          exact ih nextSpelled taken

/-- The number of open parentheses. -/
def openings (stack : Stack) : Nat :=
  stack.count .paren

theorem openings_closeNegations (stack : Stack) (operand : Expr) :
    openings (closeNegations stack operand).1 = openings stack := by
  fun_induction closeNegations stack operand with
  | case1 stack operand ih => simpa [openings] using ih
  | case2 => rfl

theorem openings_closeOperations (floor : Nat) (stack : Stack) (operand : Expr) :
    openings (closeOperations floor stack operand).1 = openings stack := by
  fun_induction closeOperations floor stack operand with
  | case1 left op stack right closes ih => simpa [openings] using ih
  | case2 => rfl
  | case3 => rfl

/-- Below the operations that can be closed there is a parenthesis or nothing. -/
theorem closeOperations_cases (spelled : SpellsOperand 4 stack value tokens) :
    (∃ expr, closeOperations 0 stack value = ([], expr)) ∨
      ∃ rest inner, closeOperations 0 stack value = (.paren :: rest, inner) := by
  rcases spellsOperand_closeOperations (Nat.zero_le 4) spelled with ⟨_, _, -, -, settled, -⟩
  generalize closeOperations 0 stack value = closed at settled
  rcases closed with ⟨_ | ⟨frame, rest⟩, expr⟩
  · exact .inl ⟨expr, rfl⟩
  · cases frame with
    | negation => exact settled.elim
    | paren => exact .inr ⟨rest, expr, rfl⟩
    | operation left op => exact absurd settled (Nat.not_lt_zero _)

/-- Characters that complete what has been read to an expression. -/
def State.completion : State → List Char
  | .operand stack => ' ' :: '1' :: List.replicate (openings stack) ')'
  | .operator stack _ => ' ' :: List.replicate (openings stack) ')'

theorem endsName_completion (state : State) : EndsName state.completion := by
  cases state <;> (rintro _ ⟨⟩; decide)

/-- Closing all parentheses ends an expression. -/
theorem exists_run_closing (count : Nat) (counted : openings stack = count)
    (spelled : (State.operator stack value).Spelled tokens) (offset finish : Nat) :
    ∃ expr, run finish (.operator stack value)
      (lexemesFrom offset (List.replicate count ')')) = .ok expr := by
  induction count generalizing stack value tokens offset with
  | zero =>
      have none_open := (openings_closeOperations 0 stack value).trans counted
      rcases closeOperations_cases spelled with ⟨expr, closed⟩ | ⟨rest, inner, closed⟩
      · have concluded : conclude finish (.operator stack value) = .ok expr := by
          rw [conclude, closed]
        rw [List.replicate_zero, lexemesFrom]
        exact ⟨expr, concluded⟩
      · rw [closed] at none_open
        simp [openings] at none_open
  | succ count ih =>
      have some_open := (openings_closeOperations 0 stack value).trans counted
      rcases closeOperations_cases spelled with ⟨expr, closed⟩ | ⟨rest, inner, closed⟩
      · rw [closed] at some_open
        cases some_open
      · have advanced : advance (.operator stack value) (.token ⟨.rightParen, ")", offset⟩) =
            .ok (settle rest inner) := by
          simp only [advance, advanceOperator, connective?, closed]
        have rest_open : openings (closeNegations rest inner).1 = count := by
          rw [openings_closeNegations]
          simpa [closed, openings] using some_open
        rcases spelled_advance spelled advanced with ⟨closing, -, settled⟩
        have closing_symbol : TokenKind.ofSymbol? ')' = some (.rightParen, ")") := rfl
        rw [List.replicate_succ, lexemesFrom_symbol closing_symbol, run, List.foldlM_cons, advanced]
        exact ih rest_open settled (offset + ')'.utf8Size)

/-- The completion of a state that has been reached ends an expression. -/
theorem exists_run_completion (spelled : state.Spelled tokens) (offset finish : Nat) :
    ∃ expr, run finish state (lexemesFrom offset state.completion) = .ok expr := by
  have blank : Text.isBlank ' ' = true := by decide
  cases state with
  | operand stack =>
      have advanced : advance (.operand stack) (.token ⟨.constant, "1", offset + ' '.utf8Size⟩) =
          .ok (settle stack (.constant true)) := rfl
      rcases spelled_advance spelled advanced with ⟨operand, -, settled⟩
      rw [State.completion, lexemesFrom_blank blank, lexemesFrom_symbol rfl, run, List.foldlM_cons,
        advanced]
      exact exists_run_closing _ (openings_closeNegations stack _) settled _ finish
  | operator stack value =>
      rw [State.completion, lexemesFrom_blank blank]
      exact exists_run_closing _ rfl spelled _ finish

end Parser

/-! ## Prefixes of texts -/

section Prefixes

open Switching.Parser

variable {front : List Char} {state : State}

/-- What has been read without an error is the beginning of an expression. -/
theorem exists_parse_append
    (taken : (lexemesFrom 0 front).foldlM advance (.operand []) = .ok state) :
    ∃ more expr, parse (String.ofList front ++ more) = .ok expr := by
  have start : (State.operand []).Spelled [] := Spells.nil
  rcases spelled_foldlM start taken with ⟨tokens, spelled⟩
  have cut : Cuts 0 front state.completion := cuts_of_endsName (endsName_completion state) 0 front
  refine ⟨String.ofList state.completion, ?_⟩
  simp only [parse, lexemes, String.toList_append, String.toList_ofList]
  rw [cut, run_append taken]
  exact exists_run_completion spelled _ _

/-- A text in which a lexeme is refused is not an expression, whatever stands
behind the first character of the lexeme. -/
theorem parse_ne_ok_of_refused {char : Char} {lexeme : Lexeme} {error : ParseError}
    (taken : (lexemesFrom 0 front).foldlM advance (.operand []) = .ok state)
    (refused : advance state lexeme = .error error) (notBlank : Text.isBlank char = false)
    (kind_eq : lexeme.kind? = TokenKind.ofFirst? char)
    (cuts : ∀ more, Cuts 0 front (char :: more)) (more : String) (expr : Expr) :
    parse (String.ofList front ++ String.singleton char ++ more) ≠ .ok expr := by
  rcases exists_lexemesFrom_cons notBlank (0 + Text.utf8Length front) more.toList with
    ⟨other, later, lexemes_eq, -, other_kind⟩
  rcases exists_advance_eq_error (other_kind.trans kind_eq.symm) refused with
    ⟨otherError, failed⟩
  have toList_eq : (String.ofList front ++ String.singleton char ++ more).toList =
      front ++ char :: more.toList := by
    simp
  intro parsed
  rw [parse, lexemes, toList_eq, cuts, lexemes_eq, run_append taken, run, List.foldlM_cons,
    failed] at parsed
  cases parsed

end Prefixes

/-- A parse error shows the exact place of the fault.  The text in front of it is
the beginning of some expression, and no expression begins with that text and the
character at the fault, if the fault is not the end of the text. -/
theorem exact_position_of_parse_eq_error {text : String} {error : ParseError}
    (failed : parse text = .error error) :
    ∃ front back : String, text = front ++ back ∧ error.position = front.utf8ByteSize ∧
      (∃ more expr, parse (front ++ more) = .ok expr) ∧
      ∀ char, back.toList.head? = some char → ∀ more expr,
        parse (front ++ String.singleton char ++ more) ≠ .ok expr := by
  rcases Parser.run_eq_error_cases failed with
    ⟨before, lexeme, after, state, lexemes_eq, taken, refused⟩ | ⟨state, taken, ended⟩
  · rcases exists_cut lexemes_eq with ⟨front, char, rest, chars_eq, notBlank, rfl, cuts⟩
    rw [lexemes, chars_eq] at lexemes_eq
    rcases (cuts rest).first_lexeme notBlank lexemes_eq with ⟨lexeme_position, kind_eq⟩
    have text_eq : text = String.ofList front ++ String.ofList (char :: rest) := by
      rw [← String.ofList_append, ← chars_eq, String.ofList_toList]
    have position_eq : error.position = (String.ofList front).utf8ByteSize := by
      rw [Parser.position_of_advance_eq_error refused, lexeme_position, Nat.zero_add,
        Text.utf8Length_eq_utf8ByteSize]
    refine ⟨_, _, text_eq, position_eq, exists_parse_append taken, ?_⟩
    intro other isHead
    rw [String.toList_ofList, List.head?_cons, Option.some.injEq] at isHead
    subst isHead
    exact parse_ne_ok_of_refused taken refused notBlank kind_eq cuts
  · have position_eq : error.position = text.utf8ByteSize := by
      rw [Parser.position_of_conclude_eq_error ended, Text.utf8Length_eq_utf8ByteSize,
        String.ofList_toList]
    have viable := exists_parse_append taken
    rw [String.ofList_toList] at viable
    refine ⟨text, "", by simp, position_eq, viable, ?_⟩
    rintro _ ⟨⟩

/-- In `(1・0 1` the last constant stands where the parenthesis should be closed.
The symbol between the first two takes three bytes. -/
theorem unclosedText_exact_position :
    parse "(1・0 1" = .error ⟨.unclosedParenthesis, 7⟩ ∧
      ∃ front back : String, "(1・0 1" = front ++ back ∧ 7 = front.utf8ByteSize ∧
        (∃ more expr, parse (front ++ more) = .ok expr) ∧
        ∀ char, back.toList.head? = some char → ∀ more expr,
          parse (front ++ String.singleton char ++ more) ≠ .ok expr := by
  have lexemes_eq : lexemes "(1・0 1" =
      [.token ⟨.leftParen, "(", 0⟩, .token ⟨.constant, "1", 1⟩, .token ⟨.and, "・", 2⟩,
        .token ⟨.constant, "0", 5⟩, .token ⟨.constant, "1", 7⟩] := by
    change lexemesFrom 0 ['(', '1', '・', '0', ' ', '1'] = _
    rw [lexemesFrom_symbol rfl, lexemesFrom_symbol rfl, lexemesFrom_symbol rfl,
      lexemesFrom_symbol rfl, lexemesFrom_blank (by decide), lexemesFrom_symbol rfl, lexemesFrom]
    rfl
  have failed : parse "(1・0 1" = .error ⟨.unclosedParenthesis, 7⟩ := by
    rw [parse, lexemes_eq]
    rfl
  exact ⟨failed, exact_position_of_parse_eq_error failed⟩

end Switching
