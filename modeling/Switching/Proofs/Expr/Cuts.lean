import Switching.Proofs.Expr.Lexemes

/-!
# Texts cut between lexemes

A text may be cut in front of each of its lexemes, and in front of each character
that cannot go on with a name: what stands behind the cut makes no difference to
the lexemes before it, and the lexemes behind it are those of the rest of the text
alone.  The kind of a lexeme is settled by its first character.
-/

namespace Switching

variable {char : Char} {offset : Nat} {chars front back rest : List Char}

/-! ## First characters -/

/-- The category of a lexeme, if it is a token. -/
def Lexeme.kind? : Lexeme → Option TokenKind
  | .token read => some read.kind
  | .stray _ _ => none

/-- The category of the token that a character begins, if it begins one. -/
def TokenKind.ofFirst? (char : Char) : Option TokenKind :=
  if startsName char then some .identifier else (ofSymbol? char).map Prod.fst

/-- The lexeme of a character that is neither blank nor the start of a name. -/
def Lexeme.ofSole (char : Char) (offset : Nat) : Lexeme :=
  match TokenKind.ofSymbol? char with
  | some (kind, text) => .token ⟨kind, text, offset⟩
  | none => .stray char offset

theorem lexemesFrom_sole (notBlank : Text.isBlank char = false) (notStart : startsName char = false)
    (offset : Nat) (rest : List Char) :
    lexemesFrom offset (char :: rest) =
      .ofSole char offset :: lexemesFrom (offset + char.utf8Size) rest := by
  rw [lexemesFrom, notBlank, notStart]
  rfl

theorem isName_takeWhile (starts : startsName char = true) (rest : List Char) :
    IsName (String.ofList (char :: rest.takeWhile continuesName)) := by
  refine ⟨char, rest.takeWhile continuesName, String.toList_ofList, starts, ?_⟩
  intro other inRest
  exact List.all_eq_true.mp List.all_takeWhile other inRest

theorem endsName_dropWhile (rest : List Char) : EndsName (rest.dropWhile continuesName) := by
  intro char isHead
  have stops := List.head?_dropWhile_not continuesName rest
  rw [Option.mem_def.mp isHead] at stops
  simpa using stops

/-- The first name of a text and the rest of it. -/
theorem name_append_dropWhile (char : Char) (rest : List Char) :
    (String.ofList (char :: rest.takeWhile continuesName)).toList ++
      rest.dropWhile continuesName = char :: rest := by
  rw [String.toList_ofList, List.cons_append, List.takeWhile_append_dropWhile]

/-- A character that is not blank begins a lexeme, whose kind does not depend on
the characters behind it. -/
theorem exists_lexemesFrom_cons (notBlank : Text.isBlank char = false) (offset : Nat)
    (rest : List Char) :
    ∃ lexeme later, lexemesFrom offset (char :: rest) = lexeme :: later ∧
      lexeme.position = offset ∧ lexeme.kind? = TokenKind.ofFirst? char := by
  cases starts : startsName char with
  | true =>
      rw [← name_append_dropWhile char rest,
        lexemesFrom_name (isName_takeWhile starts rest) (endsName_dropWhile rest)]
      exact ⟨_, _, rfl, rfl, by rw [TokenKind.ofFirst?, if_pos starts]; rfl⟩
  | false =>
      rw [lexemesFrom_sole notBlank starts, TokenKind.ofFirst?, starts, Lexeme.ofSole]
      refine ⟨_, _, rfl, ?_⟩
      cases TokenKind.ofSymbol? char with
      | none => exact ⟨rfl, rfl⟩
      | some found => exact ⟨rfl, rfl⟩

/-! ## Cuts -/

/-- The lexemes of a text are those in front of a cut and those behind it. -/
def Cuts (offset : Nat) (front back : List Char) : Prop :=
  lexemesFrom offset (front ++ back) =
    lexemesFrom offset front ++ lexemesFrom (offset + Text.utf8Length front) back

namespace Cuts

theorem nil (offset : Nat) (back : List Char) : Cuts offset [] back := by
  rw [Cuts, lexemesFrom]
  rfl

theorem blank (isBlank : Text.isBlank char = true)
    (cuts : Cuts (offset + char.utf8Size) front back) : Cuts offset (char :: front) back := by
  rw [Cuts, List.cons_append, lexemesFrom_blank isBlank, lexemesFrom_blank isBlank, cuts,
    Text.utf8Length_cons, Nat.add_assoc]

theorem sole (notBlank : Text.isBlank char = false) (notStart : startsName char = false)
    (cuts : Cuts (offset + char.utf8Size) front back) : Cuts offset (char :: front) back := by
  rw [Cuts, List.cons_append, lexemesFrom_sole notBlank notStart,
    lexemesFrom_sole notBlank notStart, cuts, List.cons_append, Text.utf8Length_cons,
    Nat.add_assoc]

theorem name {name : String} (isName : IsName name) (ends : EndsName front)
    (endsBoth : EndsName (front ++ back))
    (cuts : Cuts (offset + Text.utf8Length name.toList) front back) :
    Cuts offset (name.toList ++ front) back := by
  rw [Cuts, List.append_assoc, lexemesFrom_name isName endsBoth, lexemesFrom_name isName ends,
    cuts, List.cons_append, Text.utf8Length_append, Nat.add_assoc]

end Cuts

theorem EndsName.append (endsFront : EndsName front) (endsBack : EndsName back) :
    EndsName (front ++ back) := by
  cases front with
  | nil => exact endsBack
  | cons char front => exact endsFront

/-- A text may be cut in front of characters that cannot extend a name. -/
theorem cuts_of_endsName (ends : EndsName back) (offset : Nat) (front : List Char) :
    Cuts offset front back := by
  fun_induction lexemesFrom offset front with
  | case1 offset => exact .nil offset back
  | case2 offset char rest isBlank ih => exact .blank isBlank ih
  | case3 offset char rest notBlank starts name ih =>
      have endsRest := endsName_dropWhile rest
      rw [← name_append_dropWhile char rest]
      apply Cuts.name (isName_takeWhile starts rest) endsRest (endsRest.append ends)
      rw [String.toList_ofList]
      exact ih
  | case4 offset char rest notBlank notStart first ih =>
      exact .sole (Bool.eq_false_iff.mpr notBlank) (Bool.eq_false_iff.mpr notStart) ih

/-- Whether characters can extend a name depends on the first of them. -/
theorem EndsName.exchange (ends : EndsName (front ++ char :: rest)) :
    EndsName front ∧ ∀ more, EndsName (front ++ char :: more) := by
  cases front with
  | nil => exact ⟨nofun, fun _ => ends⟩
  | cons first front => exact ⟨ends, fun _ => ends⟩

/-- A text may be cut in front of each of its lexemes, and what stands behind the
first character of the lexeme may be exchanged. -/
theorem exists_cut {before after : List Lexeme} {lexeme : Lexeme}
    (lexemes_eq : lexemesFrom offset chars = before ++ lexeme :: after) :
    ∃ front char rest, chars = front ++ char :: rest ∧ Text.isBlank char = false ∧
      lexemesFrom offset front = before ∧ ∀ more, Cuts offset front (char :: more) := by
  fun_induction lexemesFrom offset chars generalizing before with
  | case1 offset => simp at lexemes_eq
  | case2 offset char rest isBlank ih =>
      rcases ih lexemes_eq with ⟨front, first, others, rfl, notBlank, front_eq, cuts⟩
      refine ⟨char :: front, first, others, rfl, notBlank, ?_,
        fun more => (cuts more).blank isBlank⟩
      rw [lexemesFrom_blank isBlank, front_eq]
  | case3 offset char rest notBlank starts name =>
      rename_i ih
      cases before with
      | nil =>
          exact ⟨[], char, rest, rfl, Bool.eq_false_iff.mpr notBlank, by rw [lexemesFrom],
            fun more => .nil offset (char :: more)⟩
      | cons read before =>
          rcases List.cons.inj lexemes_eq with ⟨rfl, later_eq⟩
          rcases ih later_eq with ⟨front, first, others, rest_eq, firstNotBlank, front_eq, cuts⟩
          have isName := isName_takeWhile starts rest
          have name_eq : (String.ofList name).toList = name := String.toList_ofList
          rcases EndsName.exchange (rest_eq ▸ endsName_dropWhile rest) with ⟨endsFront, ends⟩
          refine ⟨(String.ofList name).toList ++ front, first, others, ?_, firstNotBlank, ?_, ?_⟩
          · rw [List.append_assoc, ← rest_eq]
            exact (name_append_dropWhile char rest).symm
          · rw [lexemesFrom_name isName endsFront, name_eq, front_eq]
          · intro more
            apply Cuts.name isName endsFront (ends more)
            rw [name_eq]
            exact cuts more
  | case4 offset char rest notBlank notStart first =>
      rename_i ih
      have notBlank : Text.isBlank char = false := Bool.eq_false_iff.mpr notBlank
      have notStart : startsName char = false := Bool.eq_false_iff.mpr notStart
      cases before with
      | nil =>
          exact ⟨[], char, rest, rfl, notBlank, by rw [lexemesFrom],
            fun more => .nil offset (char :: more)⟩
      | cons read before =>
          rcases List.cons.inj lexemes_eq with ⟨rfl, later_eq⟩
          rcases ih later_eq with ⟨front, next, others, rfl, nextNotBlank, front_eq, cuts⟩
          refine ⟨char :: front, next, others, rfl, nextNotBlank, ?_,
            fun more => (cuts more).sole notBlank notStart⟩
          rw [lexemesFrom_sole notBlank notStart, front_eq]
          rfl

/-- The lexeme behind a cut stands there, and its first character settles its kind. -/
theorem Cuts.first_lexeme {after : List Lexeme} {lexeme : Lexeme}
    (cuts : Cuts offset front (char :: rest)) (notBlank : Text.isBlank char = false)
    (lexemes_eq : lexemesFrom offset (front ++ char :: rest) =
      lexemesFrom offset front ++ lexeme :: after) :
    lexeme.position = offset + Text.utf8Length front ∧
      lexeme.kind? = TokenKind.ofFirst? char := by
  rcases exists_lexemesFrom_cons notBlank (offset + Text.utf8Length front) rest with
    ⟨first, later, first_eq, position_eq, kind_eq⟩
  rw [cuts, first_eq] at lexemes_eq
  rcases List.cons.inj (List.append_cancel_left lexemes_eq) with ⟨rfl, -⟩
  exact ⟨position_eq, kind_eq⟩

end Switching
