/-!
# Blank characters

The characters that separate words in expressions and tables are those with
the Unicode property `White_Space`.  The file lists them and derives the
operations on character lists that the readers need: stripping the blanks at
both ends and splitting into words, lines and other pieces.
-/

namespace Switching.Text

/-- The twenty-five code points with the property `White_Space`, in ascending
order. -/
def blankCodePoints : List Nat :=
  [0x09, 0x0A, 0x0B, 0x0C, 0x0D, 0x20, 0x85, 0xA0, 0x1680,
    0x2000, 0x2001, 0x2002, 0x2003, 0x2004, 0x2005, 0x2006, 0x2007,
    0x2008, 0x2009, 0x200A, 0x2028, 0x2029, 0x202F, 0x205F, 0x3000]

/-- A character is blank when its code point has the property
`White_Space`. -/
def isBlank (c : Char) : Bool :=
  blankCodePoints.contains c.toNat

/-- Strip the blanks at both ends. -/
def trim (chars : List Char) : List Char :=
  ((chars.dropWhile isBlank).reverse.dropWhile isBlank).reverse

/-- Put a character in front of the first piece of a list of pieces, opening a
piece if there is none. -/
private def extendPiece (c : Char) : List (List Char) → List (List Char)
  | [] => [[c]]
  | piece :: pieces => (c :: piece) :: pieces

/-- The pieces of a text before, between and after its separators; two
separators in a row have an empty piece between them. -/
def pieces (separates : Char → Bool) : List Char → List (List Char)
  | [] => [[]]
  | c :: rest =>
      if separates c then [] :: pieces separates rest
      else extendPiece c (pieces separates rest)

/-- The words of a text: its maximal runs of characters that are not blank. -/
def words (chars : List Char) : List String :=
  ((pieces isBlank chars).filter (!·.isEmpty)).map String.ofList

/-- The lines of a text, without the line feeds that separate them. -/
def lines (chars : List Char) : List (List Char) :=
  pieces (· == '\n') chars

end Switching.Text
