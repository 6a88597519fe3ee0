import Switching.Text.Blank

/-!
# Lines of table files

A line of a table file is empty or a comment, a directive that starts with a
point, or a cube.
-/

namespace Switching.Pla

/-- What a line says. -/
inductive Line
  | nothing
  | inputCount (value : String)
  | outputCount (value : String)
  | inputLabels (labels : List String)
  | outputLabels (labels : List String)
  | style (name : String)
  | finish
  | cube (symbols : List Char)
  deriving DecidableEq, Repr

namespace Line

/-- The directive that a list of words forms.  A directive that is not known
says nothing. -/
def ofWords (words : List String) : Line :=
  let value := (words.drop 1).headD ""
  match words.head? with
  | some ".i" => .inputCount value
  | some ".o" => .outputCount value
  | some ".ilb" => .inputLabels (words.drop 1)
  | some ".ob" => .outputLabels (words.drop 1)
  | some ".type" => .style value
  | some ".e" => .finish
  | some ".end" => .finish
  | _ => .nothing

/-- The symbols of a cube line: everything but blanks and bars, which may
stand anywhere. -/
def symbols (chars : List Char) : List Char :=
  chars.filter fun c => !Text.isBlank c && c != '|'

/-- Read a line. -/
def ofChars (chars : List Char) : Line :=
  match Text.trim chars with
  | [] => .nothing
  | '#' :: _ => .nothing
  | '.' :: rest => ofWords (Text.words ('.' :: rest))
  | trimmed => .cube (symbols trimmed)

end Line

end Switching.Pla
