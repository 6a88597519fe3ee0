import Switching.Cube.Basic
import Switching.Pla.Error
import Switching.Pla.Line
import Switching.Table.Basic
import Switching.Text.Decimal

/-!
# Reading table files

Reading goes in two steps.  The lines are collected into a `Draft`, which
holds the declared sizes, the labels and the cubes.  The cubes of the draft
are then taken as statements on single cells, which are merged: a definite
value outranks a free one, and two different definite values are a conflict.
Cells on which nothing is said are off.
-/

namespace Switching.Pla

/-- What a cube says about one output: a cell, or nothing. -/
inductive Mark
  | states (cell : Cell)
  | silent
  deriving DecidableEq, Repr

namespace Mark

/-- The mark of a symbol.  Whether a zero says off or nothing depends on the
style of the file. -/
def ofSymbol? (zeroSaysOff : Bool) : Char → Option Mark
  | '1' => some (.states .on)
  | '0' => some (if zeroSaysOff then .states .off else .silent)
  | '~' => some .silent
  | '-' => some (.states .free)
  | '2' => some (.states .free)
  | _ => none

/-- The cell that a mark states, if any. -/
def cell? : Mark → Option Cell
  | .states cell => some cell
  | .silent => none

end Mark

/-- A cube with its marks, one for each output. -/
structure CubeLine where
  cube : Cube
  marks : List Mark
  deriving DecidableEq, Repr

/-- Read symbols one by one; the first one that has no reading is rejected with
its position. -/
def readSymbols {α : Type} (read? : Char → Option α) (reject : Char → Nat → FormatError)
    (position : Nat) : List Char → Except FormatError (List α)
  | [] => .ok []
  | c :: rest =>
      match read? c with
      | none => .error (reject c position)
      | some value => (readSymbols read? reject (position + 1) rest).map (value :: ·)

/-- Read the symbols of a cube line.  The number of symbols is checked first,
then the inputs, then the outputs.  The declared sizes are added as numbers: a sum
beyond `Text.sizeLimit`, which the symbols of a line do not reach, is not reduced
to a word. -/
def CubeLine.ofSymbols (line inputs outputs : Nat) (zeroSaysOff : Bool)
    (symbols : List Char) : Except FormatError CubeLine := do
  if symbols.length = inputs + outputs then
    let cube ← readSymbols Trit.ofSymbol? .invalidInputCharacter 0 (symbols.take inputs)
    let marks ← readSymbols (Mark.ofSymbol? zeroSaysOff) .invalidOutputCharacter 0
      (symbols.drop inputs)
    return ⟨cube, marks⟩
  else
    throw (.cubeDimensions line symbols.length (inputs + outputs))

/-- What the lines read so far declare. -/
structure Draft where
  inputCount? : Option Nat := none
  outputCount? : Option Nat := none
  inputLabels? : Option (List String) := none
  outputLabels? : Option (List String) := none
  zeroSaysOff : Bool := false
  cubes : Array CubeLine := #[]
  deriving Repr, Inhabited

namespace Draft

/-- The styles in which a zero says off. -/
def zeroSaysOffIn (style : String) : Bool :=
  style == "fr" || style == "fdr"

/-- Take a line with its number.  The finishing line changes nothing. -/
def take (draft : Draft) (number : Nat) : Line → Except FormatError Draft
  | .nothing => .ok draft
  | .finish => .ok draft
  | .inputCount value =>
      match Text.size? value with
      | some count => .ok { draft with inputCount? := some count }
      | none => .error (.invalidInputCount value)
  | .outputCount value =>
      match Text.size? value with
      | some count => .ok { draft with outputCount? := some count }
      | none => .error (.invalidOutputCount value)
  | .inputLabels labels => .ok { draft with inputLabels? := some labels }
  | .outputLabels labels => .ok { draft with outputLabels? := some labels }
  | .style name => .ok { draft with zeroSaysOff := zeroSaysOffIn name }
  | .cube symbols =>
      match draft.inputCount?, draft.outputCount? with
      | none, _ => .error .missingInputCount
      | some _, none => .error .missingOutputCount
      | some inputs, some outputs => do
          let cube ← CubeLine.ofSymbols number inputs outputs draft.zeroSaysOff symbols
          return { draft with cubes := draft.cubes.push cube }

/-- Collect numbered lines, up to the finishing line.  A line that is not
valid text stops the reading. -/
def collect (draft : Draft) (number : Nat) :
    List (Option (List Char)) → Except ReadError Draft
  | [] => .ok draft
  | none :: _ => .error (.stream .invalidUtf8)
  | some chars :: rest =>
      match Line.ofChars chars with
      | .finish => .ok draft
      | line => do
          let next ← (draft.take number line).mapError ReadError.format
          next.collect (number + 1) rest

/-- The labels of one side: the given ones, or numbered ones after a
letter. -/
def labels (side : Side) (letter : String) (count : Nat) :
    Option (List String) → Except FormatError (List String)
  | some given =>
      if given.length = count then .ok given
      else .error (.labelCount side given.length count)
  | none => .ok ((List.range count).map fun i => letter ++ toString i)

/-- The blank table of the declared shape. -/
def blankTable (draft : Draft) : Except ReadError Table := do
  let inputs ← (labels .input "x" (draft.inputCount?.getD 0) draft.inputLabels?).mapError
    ReadError.format
  let outputs ← (labels .output "y" (draft.outputCount?.getD 0) draft.outputLabels?).mapError
    ReadError.format
  (Table.blank inputs outputs).mapError ReadError.table

end Draft

/-- A statement on the cell in a row and a column. -/
structure Statement where
  row : Nat
  column : Nat
  cell : Cell
  deriving DecidableEq, Repr

/-- The statements of a cube, row by row and column by column. -/
def CubeLine.statements (line : CubeLine) : List Statement :=
  line.cube.rows.flatMap fun row =>
    line.marks.zipIdx.filterMap fun (mark, column) =>
      mark.cell?.map fun cell => ⟨row, column, cell⟩

/-- Merge a new statement on a cell with what is known of it. -/
def mergeCell? : Option Cell → Cell → Option Cell
  | none, said => some said
  | some .free, said => some said
  | some known, .free => some known
  | some known, said => if known = said then some said else none

/-- What is known of each cell of a table. -/
abbrev Sheet (table : Table) : Type :=
  Vector (Vector (Option Cell) table.outputCount) table.rowCount

/-- The sheet on which nothing is known. -/
def Sheet.empty (table : Table) : Sheet table :=
  .replicate _ (.replicate _ none)

/-- Enter a statement on a sheet.  A file that keeps its sizes from its first
cube line on has statements on cells of its table only.  What a file means that
changes them later is left open: a reader that holds all cells in one array would
take a statement outside the table for one on another cell, or stop at it, where
this one drops it. -/
def Sheet.enter {table : Table} (sheet : Sheet table) (statement : Statement) :
    Except FormatError (Sheet table) :=
  if row_lt : statement.row < table.rowCount then
    if column_lt : statement.column < table.outputCount then
      match mergeCell? sheet[statement.row][statement.column] statement.cell with
      | some cell =>
          .ok (sheet.set statement.row (sheet[statement.row].set statement.column (some cell)))
      | none =>
          .error (.conflictingValue (Row.pattern table.inputs.length statement.row)
            table.outputs[statement.column])
    else .ok sheet
  else .ok sheet

/-- The table whose cells are as a sheet knows them, and off where it knows
nothing. -/
def Sheet.toTable {table : Table} (sheet : Sheet table) : Table :=
  { table with rows := sheet.map fun row => row.map fun known => known.getD .off }

/-- The table that a draft describes. -/
def Draft.toTable (draft : Draft) : Except ReadError Table := do
  let table ← draft.blankTable
  let statements := draft.cubes.toList.flatMap CubeLine.statements
  let sheet ← (statements.foldlM Sheet.enter (Sheet.empty table)).mapError ReadError.format
  return sheet.toTable

/-- Read a table from lines, of which those that are not valid text are left
out. -/
def readLines (lines : List (Option (List Char))) : Except ReadError Table := do
  let draft ← Draft.collect {} 1 lines
  draft.toTable

/-- Read a table from text. -/
def read (text : String) : Except ReadError Table :=
  readLines ((Text.lines text.toList).map some)

/-- The pieces of a byte sequence between its line feeds. -/
def byteLines : List UInt8 → List (List UInt8)
  | [] => [[]]
  | byte :: rest =>
      match byteLines rest with
      | [] => [[byte]]
      | line :: lines => if byte = 10 then [] :: line :: lines else (byte :: line) :: lines

/-- Read a table from bytes, decoding every line on its own. -/
def readBytes (bytes : ByteArray) : Except ReadError Table :=
  readLines ((byteLines bytes.toList).map fun line =>
    (String.fromUTF8? ⟨line.toArray⟩).map String.toList)

end Switching.Pla
