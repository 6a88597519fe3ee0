import Switching.Expr.Printer
import Switching.Proofs.Expr.ParsedNames

/-!
# Written expressions are read back

The text that is written for an expression derives the expression again, with
exactly the nesting that was written.  No derivation of the expression manages
with less, whatever text it starts from, so the parentheses are forced.  Hence an
expression is read back from its text exactly if the text is not nested too
deeply, and an expression that has been read always is.
-/

namespace Switching

open Grammar

namespace Expr

/-! ## Nesting -/

/-- The characters that `renderAt` writes in the given number of parentheses and
negations, each with the number of those around it. -/
def pointsAt (floor nesting : Nat) : Expr → List (Char × Nat)
  | .constant value => (constantText value).toList.map (·, nesting)
  | .var name => name.toList.map (·, nesting)
  | .not operand => ('¬', nesting) :: operand.pointsAt negationPrecedence (nesting + 1)
  | .binary op left right =>
      let points (nesting : Nat) := left.pointsAt op.precedence nesting ++
        op.symbol.toList.map (·, nesting) ++ right.pointsAt (op.precedence + 1) nesting
      if op.precedence < floor then ('(', nesting) :: (points (nesting + 1) ++ [(')', nesting)])
      else points nesting

/-- The characters of the written expression, each with the number of
parentheses and negations around it. -/
def points (expr : Expr) : List (Char × Nat) :=
  expr.pointsAt 0 0

theorem map_fst_pointsAt (expr : Expr) (floor nesting : Nat) :
    (expr.pointsAt floor nesting).map Prod.fst = (expr.renderAt floor).toList := by
  induction expr generalizing floor nesting with
  | constant value => simp [pointsAt, renderAt, Function.comp_def]
  | var name => simp [pointsAt, renderAt, Function.comp_def]
  | not operand ih => simp [pointsAt, renderAt, ih]
  | binary op left right ihLeft ihRight =>
      by_cases loose : op.precedence < floor <;>
        simp [pointsAt, renderAt, loose, ihLeft, ihRight, Function.comp_def]

/-- The points are the characters of the text. -/
theorem map_fst_points (expr : Expr) : expr.points.map Prod.fst = expr.render.toList :=
  expr.map_fst_pointsAt 0 0

theorem forall_mem_map_le_iff {chars : List Char} (nonempty : chars ≠ []) {nesting limit : Nat} :
    (∀ point ∈ chars.map (·, nesting), point.2 ≤ limit) ↔ nesting ≤ limit := by
  obtain ⟨char, mem⟩ := List.exists_mem_of_ne_nil chars nonempty
  constructor
  · intro bounded
    exact bounded (char, nesting) (List.mem_map_of_mem mem)
  · rintro bounded point pointMem
    obtain ⟨_, -, rfl⟩ := List.mem_map.mp pointMem
    exact bounded

/-- The written nesting is the largest number of parentheses and negations
around a point. -/
theorem forall_pointsAt_le_iff {expr : Expr} (names : expr.HasNames) {floor nesting limit : Nat} :
    (∀ point ∈ expr.pointsAt floor nesting, point.2 ≤ limit) ↔
      nesting + expr.writtenNesting floor ≤ limit := by
  induction expr generalizing floor nesting with
  | constant value =>
      have nonempty : (constantText value).toList ≠ [] := by cases value <;> decide
      exact forall_mem_map_le_iff nonempty
  | var name =>
      obtain ⟨first, rest, toList_eq, -⟩ := names name List.mem_cons_self
      have nonempty : name.toList ≠ [] := toList_eq ▸ List.cons_ne_nil first rest
      exact forall_mem_map_le_iff nonempty
  | not operand ih =>
      rw [pointsAt, List.forall_mem_cons, ih names, writtenNesting]
      omega
  | binary op left right ihLeft ihRight =>
      obtain ⟨leftNames, rightNames⟩ := hasNames_binary.mp names
      have nonempty : op.symbol.toList ≠ [] := by cases op <;> decide
      by_cases loose : op.precedence < floor
      · simp only [pointsAt, if_pos loose, writtenNesting, List.forall_mem_cons,
          List.forall_mem_append, ihLeft leftNames, ihRight rightNames,
          forall_mem_map_le_iff nonempty]
        simp only [List.not_mem_nil, false_implies, implies_true, and_true]
        omega
      · simp only [pointsAt, if_neg loose, writtenNesting, List.forall_mem_append,
          ihLeft leftNames, ihRight rightNames, forall_mem_map_le_iff nonempty]
        omega

theorem forall_points_le_iff {expr : Expr} (names : expr.HasNames) {limit : Nat} :
    (∀ point ∈ expr.points, point.2 ≤ limit) ↔ expr.writtenNesting 0 ≤ limit := by
  rw [points, forall_pointsAt_le_iff names, Nat.zero_add]

theorem writtenNesting_mono (expr : Expr) {floor higher : Nat} (le : floor ≤ higher) :
    expr.writtenNesting floor ≤ expr.writtenNesting higher := by
  cases expr with
  | constant value => exact Nat.le_refl _
  | var name => exact Nat.le_refl _
  | not operand => exact Nat.le_refl _
  | binary op left right =>
      simp only [writtenNesting]
      split <;> split <;> omega

/-- A place that requires more costs at most one pair of parentheses. -/
theorem writtenNesting_le_succ (expr : Expr) (floor other : Nat) :
    expr.writtenNesting floor ≤ expr.writtenNesting other + 1 := by
  cases expr with
  | constant value => exact Nat.zero_le _
  | var name => exact Nat.zero_le _
  | not operand => exact Nat.le_succ _
  | binary op left right =>
      simp only [writtenNesting]
      split <;> split <;> omega

theorem writtenNesting_binary (op : Connective) (left right : Expr) :
    (binary op left right).writtenNesting op.precedence =
      max (left.writtenNesting op.precedence) (right.writtenNesting (op.precedence + 1)) := by
  simp only [writtenNesting, Nat.lt_irrefl, if_false]

end Expr

/-- The precedence that a level of the grammar requires. -/
def Grammar.Level.floor : Level → Nat
  | .or => Connective.or.precedence
  | .xor => Connective.xor.precedence
  | .and => Connective.and.precedence
  | .unary => Expr.negationPrecedence
  | .atom => Expr.negationPrecedence

/-- No derivation needs less nesting than is written, so the written parentheses
are forced. -/
theorem Grammar.Derives.writtenNesting_le {level : Level} {nesting : Nat} {tokens : List Token}
    {expr : Expr} (derives : Derives level nesting tokens expr) :
    expr.writtenNesting level.floor ≤ nesting := by
  induction derives with
  | identifier kind => exact Nat.zero_le _
  | constant kind => exact Nat.zero_le _
  | paren opens closes _ ih =>
      exact Nat.le_trans (Expr.writtenNesting_le_succ _ _ _) (Nat.succ_le_succ ih)
  | atom _ ih => exact ih
  | not kind _ ih => exact Nat.succ_le_succ ih
  | unary _ ih | product _ ih | difference _ ih =>
      refine Nat.le_trans (Expr.writtenNesting_mono _ ?_) ih
      decide
  | and kind _ _ ihLeft ihRight | xor kind _ _ ihLeft ihRight | or kind _ _ ihLeft ihRight =>
      rw [Level.floor, Expr.writtenNesting_binary]
      exact Nat.max_le.mpr ⟨ihLeft, ihRight⟩

/-! ## The tokens of texts -/

/-- A text is read, wherever it stands, as tokens of some form, if what follows
cannot extend a name. -/
def Tokenizes (text : String) (form : List Token → Prop) : Prop :=
  ∀ (offset : Nat) (rest : List Char), EndsName rest →
    ∃ tokens next, lexemesFrom offset (text.toList ++ rest) =
        tokens.map .token ++ lexemesFrom next rest ∧ form tokens

/-- A text that ends a name in front of it and is read as the symbol of a
connective. -/
structure Connective.SpelledBy (op : Connective) (separator : String) : Prop where
  ends : ∀ rest, EndsName (separator.toList ++ rest)
  spelled : ∀ (offset : Nat) (rest : List Char),
    ∃ token next, Parser.connective? token.kind = some op ∧
      lexemesFrom offset (separator.toList ++ rest) = .token token :: lexemesFrom next rest

/-- A symbol of a connective between blanks. -/
theorem Connective.spelledBy_spaced {op : Connective} {separator text : String} {char : Char}
    {kind : TokenKind} (toList_eq : separator.toList = [' ', char, ' '])
    (symbol : TokenKind.ofSymbol? char = some (kind, text))
    (connects : Parser.connective? kind = some op) : op.SpelledBy separator where
  ends rest := by
    rw [toList_eq]
    rintro _ ⟨⟩
    decide
  spelled offset rest := by
    have blank : Text.isBlank ' ' = true := by decide
    refine ⟨⟨kind, text, offset + ' '.utf8Size⟩,
      offset + ' '.utf8Size + char.utf8Size + ' '.utf8Size, connects, ?_⟩
    rw [toList_eq]
    change lexemesFrom offset (' ' :: char :: ' ' :: rest) = _
    rw [lexemesFrom_blank blank, lexemesFrom_symbol symbol, lexemesFrom_blank blank]

/-- The symbol of a connective, as it is written in expressions. -/
theorem Connective.spelledBy_symbol (op : Connective) : op.SpelledBy op.symbol := by
  cases op with
  | and =>
      refine ⟨?_, fun offset rest => ⟨_, _, rfl, lexemesFrom_symbol rfl offset rest⟩⟩
      rintro _ _ ⟨⟩
      decide
  | or => exact spelledBy_spaced rfl rfl rfl
  | xor => exact spelledBy_spaced rfl rfl rfl

namespace Tokenizes

variable {text other : String} {form otherForm : List Token → Prop}

theorem imp (tokenizes : Tokenizes text form) (implies : ∀ tokens, form tokens → otherForm tokens) :
    Tokenizes text otherForm := by
  intro offset rest ends
  obtain ⟨tokens, next, lexemes_eq, formed⟩ := tokenizes offset rest ends
  exact ⟨tokens, next, lexemes_eq, implies tokens formed⟩

theorem constant (value : Bool) :
    Tokenizes (constantText value) fun tokens =>
      ∃ position, tokens = [⟨.constant, constantText value, position⟩] := by
  intro offset rest _
  have symbol : ∃ char, (constantText value).toList = [char] ∧
      TokenKind.ofSymbol? char = some (.constant, constantText value) := by
    cases value <;> exact ⟨_, rfl, rfl⟩
  obtain ⟨char, toList_eq, symbol⟩ := symbol
  refine ⟨_, offset + char.utf8Size, ?_, offset, rfl⟩
  rw [toList_eq]
  exact lexemesFrom_symbol symbol offset rest

theorem name {name : String} (isName : IsName name) :
    Tokenizes name fun tokens => ∃ position, tokens = [⟨.identifier, name, position⟩] := by
  intro offset rest ends
  exact ⟨[⟨.identifier, name, offset⟩], _, lexemesFrom_name isName ends offset, offset, rfl⟩

theorem not (tokenizes : Tokenizes text form) :
    Tokenizes ("¬" ++ text) fun tokens =>
      ∃ token inner, token.kind = .not ∧ form inner ∧ tokens = token :: inner := by
  intro offset rest ends
  obtain ⟨inner, next, lexemes_eq, formed⟩ := tokenizes (offset + '¬'.utf8Size) rest ends
  refine ⟨⟨.not, "¬", offset⟩ :: inner, next, ?_, _, inner, rfl, formed, rfl⟩
  rw [String.toList_append, List.append_assoc]
  change lexemesFrom offset ('¬' :: (text.toList ++ rest)) = _
  rw [lexemesFrom_symbol rfl, lexemes_eq]
  rfl

theorem paren (tokenizes : Tokenizes text form) :
    Tokenizes ("(" ++ text ++ ")") fun tokens =>
      ∃ opening inner closing, opening.kind = .leftParen ∧ closing.kind = .rightParen ∧
        form inner ∧ tokens = opening :: (inner ++ [closing]) := by
  intro offset rest _
  have endsInside : EndsName (')' :: rest) := by
    rintro _ ⟨⟩
    decide
  obtain ⟨inner, next, lexemes_eq, formed⟩ :=
    tokenizes (offset + '('.utf8Size) (')' :: rest) endsInside
  refine ⟨⟨.leftParen, "(", offset⟩ :: (inner ++ [⟨.rightParen, ")", next⟩]),
    next + ')'.utf8Size, ?_, _, inner, _, rfl, rfl, formed, rfl⟩
  rw [String.toList_append, String.toList_append, List.append_assoc, List.append_assoc]
  change lexemesFrom offset ('(' :: (text.toList ++ ')' :: rest)) = _
  rw [lexemesFrom_symbol rfl, lexemes_eq, lexemesFrom_symbol rfl]
  simp

theorem binary {op : Connective} {separator : String} (spelledBy : op.SpelledBy separator)
    (tokenizesLeft : Tokenizes text form) (tokenizesRight : Tokenizes other otherForm) :
    Tokenizes (text ++ separator ++ other) fun tokens =>
      ∃ front token back, Parser.connective? token.kind = some op ∧ form front ∧
        otherForm back ∧ tokens = front ++ token :: back := by
  intro offset rest ends
  obtain ⟨front, middle, left_eq, formedLeft⟩ :=
    tokenizesLeft offset _ (spelledBy.ends (other.toList ++ rest))
  obtain ⟨token, afterSymbol, connects, symbol_eq⟩ :=
    spelledBy.spelled middle (other.toList ++ rest)
  obtain ⟨back, next, right_eq, formedRight⟩ := tokenizesRight afterSymbol rest ends
  refine ⟨front ++ token :: back, next, ?_, front, token, back, connects, formedLeft,
    formedRight, rfl⟩
  rw [String.toList_append, String.toList_append, List.append_assoc, List.append_assoc, left_eq,
    symbol_eq, right_eq]
  simp

end Tokenizes

/-! ## The tokens of written expressions -/

theorem derives_constant (value : Bool) (position : Nat) :
    Derives .unary 0 [⟨.constant, constantText value, position⟩] (.constant value) := by
  have value_eq : (constantText value == "1") = value := by cases value <;> decide
  have derives : Derives .atom 0 [⟨.constant, constantText value, position⟩]
      (.constant (constantText value == "1")) := .constant rfl
  rw [value_eq] at derives
  exact derives.atom

/-- A text is read, wherever it stands, as tokens that derive an expression, if
what follows cannot extend a name. -/
def WritesAt (floor nesting : Nat) (text : String) (expr : Expr) : Prop :=
  ∀ (offset : Nat) (rest : List Char), EndsName rest →
    ∃ tokens next, lexemesFrom offset (text.toList ++ rest) =
        tokens.map .token ++ lexemesFrom next rest ∧
      Derives (levelFor floor) nesting tokens expr

namespace WritesAt

variable {floor nesting : Nat} {text : String} {expr : Expr}

theorem constant (floor : Nat) (value : Bool) :
    WritesAt floor 0 (constantText value) (.constant value) := by
  refine (Tokenizes.constant value).imp ?_
  rintro _ ⟨position, rfl⟩
  exact (derives_constant value position).levelFor_of_unary floor

theorem var (floor : Nat) {name : String} (isName : IsName name) :
    WritesAt floor 0 name (.var name) := by
  refine (Tokenizes.name isName).imp ?_
  rintro _ ⟨position, rfl⟩
  have derives : Derives .atom 0 [⟨.identifier, name, position⟩] (.var name) := .identifier rfl
  exact derives.atom.levelFor_of_unary floor

theorem not (floor : Nat) (writes : WritesAt 4 nesting text expr) :
    WritesAt floor (nesting + 1) ("¬" ++ text) (.not expr) := by
  refine (Tokenizes.not writes).imp ?_
  rintro _ ⟨token, inner, kind, derives, rfl⟩
  exact (Derives.not kind derives).levelFor_of_unary floor

theorem paren (floor : Nat) (writes : WritesAt 0 nesting text expr) :
    WritesAt floor (nesting + 1) ("(" ++ text ++ ")") expr := by
  refine (Tokenizes.paren writes).imp ?_
  rintro _ ⟨opening, inner, closing, opens, closes, derives, rfl⟩
  exact (Derives.paren opens closes derives).atom.levelFor_of_unary floor

theorem binary {op : Connective} {leftNesting rightNesting : Nat} {leftText rightText : String}
    {left right : Expr} (writesLeft : WritesAt op.precedence leftNesting leftText left)
    (writesRight : WritesAt (op.precedence + 1) rightNesting rightText right) :
    WritesAt op.precedence (max leftNesting rightNesting) (leftText ++ op.symbol ++ rightText)
      (.binary op left right) := by
  refine (Tokenizes.binary op.spelledBy_symbol writesLeft writesRight).imp ?_
  rintro _ ⟨front, token, back, connects, derivesLeft, derivesRight, rfl⟩
  exact .binary connects (derivesLeft.mono (Nat.le_max_left _ _))
    (derivesRight.mono (Nat.le_max_right _ _))

theorem loosen {higher : Nat} (writes : WritesAt higher nesting text expr) (le : floor ≤ higher) :
    WritesAt floor nesting text expr :=
  Tokenizes.imp writes fun _ derives => derives.loosen le

end WritesAt

/-- The text of an expression derives the expression with the written nesting. -/
theorem Expr.writesAt_renderAt {expr : Expr} (names : expr.HasNames) (floor : Nat) :
    WritesAt floor (expr.writtenNesting floor) (expr.renderAt floor) expr := by
  induction expr generalizing floor with
  | constant value => exact .constant floor value
  | var name => exact .var floor (names name List.mem_cons_self)
  | not operand ih => exact .not floor (ih names negationPrecedence)
  | binary op left right ihLeft ihRight =>
      obtain ⟨leftNames, rightNames⟩ := hasNames_binary.mp names
      have writes := WritesAt.binary (ihLeft leftNames op.precedence)
        (ihRight rightNames (op.precedence + 1))
      by_cases loose : op.precedence < floor
      · rw [writtenNesting, renderAt, if_pos loose, if_pos loose]
        exact .paren floor (writes.loosen (Nat.zero_le _))
      · rw [writtenNesting, renderAt, if_neg loose, if_neg loose]
        exact writes.loosen (Nat.le_of_not_lt loose)

/-- The tokens of an expression that is written for some place derive it with the
written nesting. -/
theorem Expr.exists_derives_renderAt {expr : Expr} (names : expr.HasNames) (floor : Nat) :
    ∃ tokens, lexemes (expr.renderAt floor) = tokens.map .token ∧
      Derives .or (expr.writtenNesting floor) tokens expr := by
  have ends : EndsName [] := nofun
  have writes := (Expr.writesAt_renderAt names floor).loosen (Nat.zero_le floor)
  obtain ⟨tokens, next, lexemes_eq, derives⟩ := writes 0 [] ends
  refine ⟨tokens, ?_, derives⟩
  rw [List.append_nil, lexemesFrom, List.append_nil] at lexemes_eq
  exact lexemes_eq

/-! ## Reading back -/

theorem Grammar.Derives.forall_points_le {nesting : Nat} {tokens : List Token} {expr : Expr}
    (derives : Derives .or nesting tokens expr) (names : expr.HasNames) :
    ∀ point ∈ expr.points, point.2 ≤ nesting :=
  (Expr.forall_points_le_iff names).mpr
    (Nat.le_trans (expr.writtenNesting_mono (Nat.zero_le _)) derives.writtenNesting_le)

/-- An expression is read back from the text that is written for any place, if
the text is not nested too deeply. -/
theorem parse_renderAt {expr : Expr} (names : expr.HasNames) {floor : Nat}
    (fits : expr.writtenNesting floor ≤ maxNesting) : parse (expr.renderAt floor) = .ok expr := by
  obtain ⟨tokens, lexemes_eq, derives⟩ := Expr.exists_derives_renderAt names floor
  exact Parser.run_eq_ok_iff.mpr ⟨tokens, lexemes_eq, derives.mono fits⟩

/-- An expression is read back from its text if no point of the text is nested
too deeply. -/
theorem parse_render_of_points_le {expr : Expr} (names : expr.HasNames)
    (bounded : ∀ point ∈ expr.points, point.2 ≤ maxNesting) : parse expr.render = .ok expr :=
  parse_renderAt names ((Expr.forall_points_le_iff names).mp bounded)

/-- An expression is read back from its text exactly if no point of the text is
nested too deeply.  An expression that was read from any text is read back, and
its own text is nested no more deeply than the text it was read from. -/
theorem parse_render :
    (∀ expr : Expr, expr.HasNames →
      (parse expr.render = .ok expr ↔ ∀ point ∈ expr.points, point.2 ≤ maxNesting)) ∧
    ∀ (text : String) (expr : Expr), parse text = .ok expr →
      parse expr.render = .ok expr ∧
        ∀ (nesting : Nat) (tokens : List Token), lexemes text = tokens.map .token →
          Derives .or nesting tokens expr → ∀ point ∈ expr.points, point.2 ≤ nesting := by
  constructor
  · intro expr names
    constructor
    · intro parsed
      obtain ⟨tokens, -, derives⟩ := Parser.run_eq_ok_iff.mp parsed
      exact derives.forall_points_le names
    · exact parse_render_of_points_le names
  · intro text expr parsed
    have names := hasNames_of_parse parsed
    obtain ⟨tokens, -, derives⟩ := Parser.run_eq_ok_iff.mp parsed
    exact ⟨parse_render_of_points_le names (derives.forall_points_le names),
      fun _ _ _ derivesAgain => derivesAgain.forall_points_le names⟩

/-- The expression `¬(a + b)・c`. -/
def negatedSum : Expr :=
  .and (.not (.or (.var "a") (.var "b"))) (.var "c")

theorem negatedSum_parse_render :
    negatedSum.HasNames ∧ (∀ point ∈ negatedSum.points, point.2 ≤ maxNesting) ∧
      parse negatedSum.render = .ok negatedSum := by
  have names : negatedSum.HasNames := by decide
  have bounded : ∀ point ∈ negatedSum.points, point.2 ≤ maxNesting := by decide
  exact ⟨names, bounded, (parse_render.1 negatedSum names).mpr bounded⟩

end Switching
