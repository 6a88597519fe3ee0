import Switching.Expr.Lexer

/-!
# Lexemes one at a time

Blanks give no lexeme, a symbol gives a token of its own, and a name gives one
token if what follows cannot extend it.  Identifiers are always names.
-/

namespace Switching

variable {char : Char} {offset : Nat}

/-! ## Kinds of characters -/

theorem startsName_of_isBlank (blank : Text.isBlank char = true) : startsName char = false := by
  have all : ∀ code ∈ Text.blankCodePoints, startsName (Char.ofNat code) = false := by decide
  rw [← Char.ofNat_toNat char]
  exact all char.toNat (List.contains_iff_mem.mp blank)

/-- A character that spells a token is neither blank nor the start of a name. -/
theorem isBlank_of_ofSymbol? {found : TokenKind × String}
    (symbol : TokenKind.ofSymbol? char = some found) :
    Text.isBlank char = false ∧ startsName char = false := by
  unfold TokenKind.ofSymbol? at symbol
  split at symbol <;> first | decide | cases symbol

/-! ## Lexemes -/

theorem lexemesFrom_blank (blank : Text.isBlank char = true) (offset : Nat) (rest : List Char) :
    lexemesFrom offset (char :: rest) = lexemesFrom (offset + char.utf8Size) rest := by
  rw [lexemesFrom, if_pos blank]

theorem lexemesFrom_symbol {kind : TokenKind} {text : String}
    (symbol : TokenKind.ofSymbol? char = some (kind, text)) (offset : Nat) (rest : List Char) :
    lexemesFrom offset (char :: rest) =
      .token ⟨kind, text, offset⟩ :: lexemesFrom (offset + char.utf8Size) rest := by
  obtain ⟨notBlank, notStart⟩ := isBlank_of_ofSymbol? symbol
  rw [lexemesFrom, notBlank, notStart, symbol]
  rfl

/-- A text that cannot extend a name in front of it. -/
def EndsName (rest : List Char) : Prop :=
  ∀ char ∈ rest.head?, continuesName char = false

/-- A name gives one token if the text that follows cannot extend it. -/
theorem lexemesFrom_name {name : String} (isName : IsName name) {rest : List Char}
    (ends : EndsName rest) (offset : Nat) :
    lexemesFrom offset (name.toList ++ rest) =
      .token ⟨.identifier, name, offset⟩ ::
        lexemesFrom (offset + Text.utf8Length name.toList) rest := by
  obtain ⟨first, others, toList_eq, starts, continues⟩ := isName
  have notBlank : Text.isBlank first = false := by
    cases blank : Text.isBlank first with
    | false => rfl
    | true => exact absurd starts (startsName_of_isBlank blank ▸ Bool.false_ne_true)
  have takes : (others ++ rest).takeWhile continuesName = others := by
    rw [List.takeWhile_append_of_pos continues]
    cases rest with
    | nil => simp
    | cons char rest => simp [ends char rfl]
  have drops : (others ++ rest).dropWhile continuesName = rest := by
    rw [List.dropWhile_append_of_pos continues]
    cases rest with
    | nil => simp
    | cons char rest => simp [ends char rfl]
  rw [toList_eq, List.cons_append, lexemesFrom, notBlank, starts, takes, drops, ← toList_eq]
  simp only [String.ofList_toList, if_true, Bool.false_eq_true, if_false]

/-! ## Identifiers -/

/-- An identifier is a name. -/
def Lexeme.IsNamed : Lexeme → Prop
  | .token read => read.kind = .identifier → IsName read.text
  | .stray _ _ => True

theorem kind_ne_identifier_of_ofSymbol? {c : Char} {kind : TokenKind} {text : String}
    (symbol : TokenKind.ofSymbol? c = some (kind, text)) : kind ≠ .identifier := by
  unfold TokenKind.ofSymbol? at symbol
  split at symbol <;> cases symbol <;> decide

/-- The identifiers of a text are names. -/
theorem isNamed_of_mem_lexemesFrom {lexeme : Lexeme} (offset : Nat) (chars : List Char)
    (mem : lexeme ∈ lexemesFrom offset chars) : lexeme.IsNamed := by
  fun_induction lexemesFrom offset chars with
  | case1 => cases mem
  | case2 offset c rest blank ih => exact ih mem
  | case3 offset c rest notBlank starts name ih =>
      rcases List.mem_cons.mp mem with rfl | later
      · intro _
        refine ⟨c, rest.takeWhile continuesName, String.toList_ofList, starts, ?_⟩
        intro other inRest
        exact List.all_eq_true.mp List.all_takeWhile other inRest
      · exact ih later
  | case4 offset c rest notBlank notStart first ih =>
      rcases List.mem_cons.mp mem with rfl | later
      · cases symbol : TokenKind.ofSymbol? c with
        | none => simp [first, symbol, Lexeme.IsNamed]
        | some found =>
            obtain ⟨kind, text⟩ := found
            have differs := kind_ne_identifier_of_ofSymbol? symbol
            simp [first, symbol, Lexeme.IsNamed, differs]
      · exact ih later

end Switching
