import Switching.Pla.Error
import Switching.Table.Basic

/-!
# Writing table files

A table is written with one cube per row in the style in which every cell is
stated, so that reading the text gives the table back.
-/

namespace Switching.Pla

/-- The symbol of a cell in a cube line. -/
def cellSymbol : Cell → Char
  | .on => '1'
  | .off => '0'
  | .free => '-'

/-- The line that lists labels, which is left out when there are none. -/
def labelLine (directive : String) (labels : List String) : List String :=
  if labels.isEmpty then [] else [directive ++ " " ++ String.intercalate " " labels]

/-- The line of a row. -/
def rowLine (entry : String × List Cell) : String :=
  entry.1 ++ " " ++ String.ofList (entry.2.map cellSymbol)

/-- The lines of a table file. -/
def writtenLines (table : Table) : List String :=
  [".i " ++ toString table.inputs.length, ".o " ++ toString table.outputs.length] ++
    labelLine ".ilb" table.inputs ++
    labelLine ".ob" table.outputs ++
    [".type fr", ".p " ++ toString table.rowCount] ++
    table.entries.map rowLine ++
    [".e"]

/-- Write a table. -/
def write (table : Table) : String :=
  String.join ((writtenLines table).map (· ++ "\n"))

/-- What a sink for the given number of bytes has taken of a text, as text: a
character of which it took only some bytes shows as one replacement
character. -/
def taken : (limit : Nat) → List Char → List Char
  | _, [] => []
  | limit, c :: rest =>
      if c.utf8Size ≤ limit then c :: taken (limit - c.utf8Size) rest
      else if limit = 0 then [] else ['\uFFFD']

/-- Write a table into a sink that may be limited to a number of bytes.  The
sink takes what fits, and refuses a text that does not fit as a whole. -/
def writeTo (limit? : Option Nat) (table : Table) : Except WriteError Unit × String :=
  let text := write table
  match limit? with
  | none => (.ok (), text)
  | some limit =>
      (if text.utf8ByteSize ≤ limit then .ok () else .error ⟨.full⟩,
        String.ofList (taken limit text.toList))

end Switching.Pla
