import Switching.Text.Blank
import Switching.Text.Utf8
import Switching.Expr.Token

/-!
# Lexemes of a text

`lexemes` splits a text into its lexemes: blanks separate and are dropped, a
name extends as far as it can, and every other character stands alone.  A
`Lexer` hands the lexemes out one at a time, with one token of lookahead.  A
stray character is reported once, by whichever call meets it first.
-/

namespace Switching

/-- The lexemes of a list of characters whose first character stands at the
given byte offset. -/
def lexemesFrom (offset : Nat) : List Char → List Lexeme
  | [] => []
  | c :: rest =>
      if Text.isBlank c then
        lexemesFrom (offset + c.utf8Size) rest
      else if startsName c then
        let name := c :: rest.takeWhile continuesName
        .token ⟨.identifier, String.ofList name, offset⟩ ::
          lexemesFrom (offset + Text.utf8Length name) (rest.dropWhile continuesName)
      else
        let lexeme := match TokenKind.ofSymbol? c with
          | some (kind, text) => .token ⟨kind, text, offset⟩
          | none => .stray c offset
        lexeme :: lexemesFrom (offset + c.utf8Size) rest
termination_by chars => chars.length
decreasing_by
  all_goals simp only [List.length_cons]
  · omega
  · have := (List.dropWhile_sublist (l := rest) continuesName).length_le
    omega
  · omega

/-- The lexemes of a text. -/
def lexemes (text : String) : List Lexeme :=
  lexemesFrom 0 text.toList

/-- A reader of tokens: the lexemes still to come and the byte offset at which
the text ends. -/
structure Lexer where
  pending : List Lexeme
  finish : Nat
  deriving DecidableEq, Repr

namespace Lexer

/-- The reader at the start of a text. -/
def ofText (text : String) : Lexer :=
  ⟨lexemes text, Text.utf8Length text.toList⟩

/-- The token that stands for the end of the text. -/
def ending (lexer : Lexer) : Token :=
  ⟨.ending, "", lexer.finish⟩

/-- Take the next lexeme.  At the end of the text every call gives the ending
token. -/
def next (lexer : Lexer) : Lexeme × Lexer :=
  match lexer.pending with
  | [] => (.token lexer.ending, lexer)
  | lexeme :: rest => (lexeme, { lexer with pending := rest })

/-- Look at the next lexeme.  A token stays where it is; a stray character is
reported and passed over. -/
def peek (lexer : Lexer) : Lexeme × Lexer :=
  match lexer.pending with
  | [] => (.token lexer.ending, lexer)
  | .token token :: _ => (.token token, lexer)
  | .stray c position :: rest => (.stray c position, { lexer with pending := rest })

/-- The two calls on a reader. -/
inductive Call
  | next
  | peek
  deriving DecidableEq, Repr

/-- Answer one call. -/
def answer (lexer : Lexer) : Call → Lexeme × Lexer
  | .next => lexer.next
  | .peek => lexer.peek

/-- Answer a sequence of calls in order. -/
def answers (lexer : Lexer) : List Call → List Lexeme
  | [] => []
  | call :: calls =>
      let (lexeme, rest) := lexer.answer call
      lexeme :: rest.answers calls

/-- All remaining lexemes with the ending token after them. -/
def drain (lexer : Lexer) : List Lexeme :=
  lexer.pending ++ [.token lexer.ending]

end Lexer

end Switching
