/-!
# Tokens of the expression language

The lexical categories, the characters that spell them, and the two outcomes
of reading one lexeme: a token or a character outside the alphabet.
-/

namespace Switching

/-- The lexical categories; `ending` is the end of the text. -/
inductive TokenKind
  | identifier
  | constant
  | and
  | or
  | not
  | xor
  | leftParen
  | rightParen
  | ending
  deriving DecidableEq, Repr, Inhabited

/-- A token with the byte offset of its first character.  The text is the
slice of the text that spells the token, except that constants are written
with ASCII digits. -/
structure Token where
  kind : TokenKind
  text : String
  position : Nat
  deriving DecidableEq, Repr, Inhabited

/-- One step of reading: a token, or a character that starts no token. -/
inductive Lexeme
  | token (token : Token)
  | stray (char : Char) (position : Nat)
  deriving DecidableEq, Repr, Inhabited

namespace Lexeme

/-- The byte offset at which a lexeme starts. -/
def position : Lexeme → Nat
  | .token found => found.position
  | .stray _ position => position

end Lexeme

/-- The category of a token that is spelled by a single character, with the
text the token carries. -/
def TokenKind.ofSymbol? (c : Char) : Option (TokenKind × String) :=
  match c with
  | '・' | '&' | '*' => some (.and, c.toString)
  | '+' | '|' | '＋' | '｜' => some (.or, c.toString)
  | '¬' | '~' | '!' | '！' => some (.not, c.toString)
  | '⊕' | '^' => some (.xor, c.toString)
  | '(' | '（' => some (.leftParen, c.toString)
  | ')' | '）' => some (.rightParen, c.toString)
  | '0' | '０' => some (.constant, "0")
  | '1' | '１' => some (.constant, "1")
  | _ => none

/-- Variable names start with an ASCII letter. -/
def startsName (c : Char) : Bool :=
  c.isAlpha

/-- Variable names go on with ASCII letters, ASCII digits, underscores and
subscript digits. -/
def continuesName (c : Char) : Bool :=
  c.isAlphanum || c == '_' || ('\u2080' ≤ c && c ≤ '\u2089')

/-- The names that can stand for a variable in the expression language. -/
def IsName (name : String) : Prop :=
  ∃ first rest, name.toList = first :: rest ∧ startsName first = true ∧
    ∀ c ∈ rest, continuesName c = true

end Switching
