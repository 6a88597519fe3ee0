import Mathlib.Data.List.Forall2
import Switching.Proofs.Cube.Rows
import Switching.Proofs.Pla.Statements
import Switching.Proofs.Table.Tabulation

/-!
# What table files mean

The cube lines of a table file are taken as a collection of statements on cells,
without regard to their order.  A cube line speaks about the rows that its input
symbols match, and each of its output symbols states a value or nothing; whether
a zero states anything depends on the style in force.  A well-formed file is read
as the table of these statements, unless some cell is stated both on and off.
-/

namespace Switching.Pla

/-! ## Declarations -/

namespace Line

/-- The number of inputs that a line declares. -/
def inputCount? : Line → Option Nat
  | .inputCount value => Text.size? value
  | _ => none

/-- The number of outputs that a line declares. -/
def outputCount? : Line → Option Nat
  | .outputCount value => Text.size? value
  | _ => none

/-- The input labels that a line gives. -/
def inputLabels? : Line → Option (List String)
  | .inputLabels labels => some labels
  | _ => none

/-- The output labels that a line gives. -/
def outputLabels? : Line → Option (List String)
  | .outputLabels labels => some labels
  | _ => none

end Line

/-- The lines that count: those before the finishing one. -/
def bodyOf (lines : List (List Char)) : List Line :=
  (lines.map Line.ofChars).takeWhile (· ≠ .finish)

/-- The lines of a text that count. -/
def body (text : String) : List Line :=
  bodyOf (Text.lines text.toList)

/-- The last declaration of one kind among some lines. -/
def last? {α : Type} (declares? : Line → Option α) (lines : List Line) : Option α :=
  (lines.filterMap declares?).getLast?

/-- Labels that are made of a letter and a number. -/
def numbered (letter : String) (count : Nat) : List String :=
  (List.range count).map fun i => letter ++ toString i

/-! ## Cube lines -/

/-- A cube line as it is given: its symbols, and whether a zero says off in the
style in force. -/
structure GivenCube where
  zeroSaysOff : Bool
  symbols : List Char
  deriving DecidableEq, Repr

/-- The cube lines among some lines, in order. -/
def cubesFrom (zeroSaysOff : Bool) : List Line → List GivenCube
  | [] => []
  | .style name :: rest => cubesFrom (Draft.zeroSaysOffIn name) rest
  | .cube symbols :: rest => ⟨zeroSaysOff, symbols⟩ :: cubesFrom zeroSaysOff rest
  | _ :: rest => cubesFrom zeroSaysOff rest

/-- The cube lines of a file.  Before the first style, a zero says nothing. -/
def cubesOf (lines : List Line) : List GivenCube :=
  cubesFrom false lines

/-- The symbols of the cube lines are those that stand in the lines. -/
theorem mem_map_symbols_iff {lines : List Line} {symbols : List Char} (zeroSaysOff : Bool) :
    symbols ∈ (cubesFrom zeroSaysOff lines).map GivenCube.symbols ↔ .cube symbols ∈ lines := by
  induction lines generalizing zeroSaysOff with
  | nil => simp [cubesFrom]
  | cons line rest ih =>
      cases line <;> simp only [cubesFrom, List.map_cons, List.mem_cons, Line.cube.injEq,
        reduceCtorEq, false_or, ih]

/-- Input symbols match a row if each of them writes its bit or leaves it
open. -/
def Matches (symbols : List Char) (bits : List Bool) : Prop :=
  List.Forall₂ (fun symbol bit => symbol = '-' ∨ symbol = Row.bitSymbol bit) symbols bits

theorem matches_cons_cons {symbol : Char} {bit : Bool} {symbols : List Char} {bits : List Bool} :
    Matches (symbol :: symbols) (bit :: bits) ↔
      (symbol = '-' ∨ symbol = Row.bitSymbol bit) ∧ Matches symbols bits := by
  constructor
  · rintro (_ | ⟨first, rest⟩)
    exact ⟨first, rest⟩
  · rintro ⟨first, rest⟩
    exact .cons first rest

/-- What an output symbol states. -/
def SymbolStates (zeroSaysOff : Bool) (symbol : Char) : Cell → Prop
  | .on => symbol = '1'
  | .off => symbol = '0' ∧ zeroSaysOff = true
  | .free => symbol = '-' ∨ symbol = '2'

/-- A cube line matches a row and states a value in a column. -/
def GivenCube.States (given : GivenCube) (width row column : Nat) (cell : Cell) : Prop :=
  Matches (given.symbols.take width) (Row.bits width row) ∧
    ∃ symbol, given.symbols[width + column]? = some symbol ∧
      SymbolStates given.zeroSaysOff symbol cell

/-- One of some cube lines states a value in a row and a column. -/
def Says (cubes : List GivenCube) (width row column : Nat) (cell : Cell) : Prop :=
  ∃ given ∈ cubes, given.States width row column cell

/-- Cube lines that match a row state both on and off in a column. -/
def Contradicts (cubes : List GivenCube) (width row column : Nat) : Prop :=
  Says cubes width row column .on ∧ Says cubes width row column .off

/-- The symbols of a cube line over some numbers of inputs and outputs. -/
structure IsCube (inputs outputs : Nat) (symbols : List Char) : Prop where
  length_eq : symbols.length = inputs + outputs
  inputs_mem : ∀ symbol ∈ symbols.take inputs, symbol ∈ ['0', '1', '-']
  outputs_mem : ∀ symbol ∈ symbols.drop inputs, symbol ∈ ['0', '1', '-', '2', '~']

/-- The lines of a well-formed file for a table with the given inputs and
outputs.  At every cube line the declared numbers are those of the whole file. -/
structure WellFormed (lines : List Line) (inputs outputs : List String) : Prop where
  inputCounts : ∀ value, .inputCount value ∈ lines → (Text.size? value).isSome
  outputCounts : ∀ value, .outputCount value ∈ lines → (Text.size? value).isSome
  inputs_length : inputs.length = (last? Line.inputCount? lines).getD 0
  outputs_length : outputs.length = (last? Line.outputCount? lines).getD 0
  inputs_eq : inputs = (last? Line.inputLabels? lines).getD (numbered "x" inputs.length)
  outputs_eq : outputs = (last? Line.outputLabels? lines).getD (numbered "y" outputs.length)
  inputs_nodup : inputs.Nodup
  outputs_nodup : outputs.Nodup
  inputs_le : inputs.length ≤ Row.maxInputs
  outputs_le : outputs.length ≤ maxOutputs
  cubes : ∀ front symbols back, lines = front ++ .cube symbols :: back →
    last? Line.inputCount? front = some inputs.length ∧
      last? Line.outputCount? front = some outputs.length ∧
      IsCube inputs.length outputs.length symbols

/-- The cells of a table are what cube lines say: on where some line says so,
free where some line says so and none says on or off, and off elsewhere. -/
structure Means (table : Table) (cubes : List GivenCube) : Prop where
  on : ∀ place : table.Place, table.cell place = .on ↔
    Says cubes table.inputs.length place.1 place.2 .on
  free : ∀ place : table.Place, table.cell place = .free ↔
    Says cubes table.inputs.length place.1 place.2 .free ∧
      ¬ Says cubes table.inputs.length place.1 place.2 .on ∧
      ¬ Says cubes table.inputs.length place.1 place.2 .off
  off : ∀ place : table.Place, table.cell place = .off ↔
    ¬ Says cubes table.inputs.length place.1 place.2 .on ∧
      (Says cubes table.inputs.length place.1 place.2 .off ∨
        ¬ Says cubes table.inputs.length place.1 place.2 .free)

/-! ## Reading a cube line -/

section

variable {symbols : List Char} {zeroSaysOff : Bool} {cell : Cell}

/-- Symbols that can all be read are read one by one. -/
theorem exists_readSymbols {α : Type} {read? : Char → Option α}
    (reject : Char → Nat → FormatError) (position : Nat)
    (readable : ∀ symbol ∈ symbols, (read? symbol).isSome = true) :
    ∃ values, readSymbols read? reject position symbols = .ok values ∧
      List.Forall₂ (fun symbol value => read? symbol = some value) symbols values := by
  induction symbols generalizing position with
  | nil => exact ⟨[], rfl, .nil⟩
  | cons symbol rest ih =>
      rw [List.forall_mem_cons] at readable
      obtain ⟨value, value_eq⟩ := Option.isSome_iff_exists.mp readable.1
      obtain ⟨values, values_eq, reads⟩ := ih (position + 1) readable.2
      refine ⟨value :: values, ?_, .cons value_eq reads⟩
      rw [readSymbols, value_eq, values_eq]
      rfl

/-- The cube of some input symbols contains the rows that they match. -/
theorem covers_full_iff_matches {cube : Cube}
    (reads : List.Forall₂ (fun symbol place => Trit.ofSymbol? symbol = some place) symbols cube)
    (bits : List Bool) : cube.covers (Cube.full bits) = true ↔ Matches symbols bits := by
  induction reads generalizing bits with
  | nil => cases bits <;> simp [Matches, Cube.full, Cube.covers]
  | @cons symbol place rest places read reads ih =>
      cases bits with
      | nil => simp [Matches, Cube.full, Cube.covers]
      | cons bit bits =>
          have first : (place = .dash ∨ place = Trit.ofBool bit) ↔
              (symbol = '-' ∨ symbol = Row.bitSymbol bit) := by
            unfold Trit.ofSymbol? at read
            split at read <;> cases read <;> cases bit <;> decide
          change Cube.covers (place :: places) (Trit.ofBool bit :: Cube.full bits) = true ↔ _
          rw [Cube.covers_cons_cons, ih, first, matches_cons_cons]

/-- The mark of an output symbol states what the symbol states. -/
theorem eq_states_iff {symbol : Char} {mark : Mark}
    (read : Mark.ofSymbol? zeroSaysOff symbol = some mark) :
    mark = .states cell ↔ SymbolStates zeroSaysOff symbol cell := by
  unfold Mark.ofSymbol? at read
  split at read <;> cases read <;> cases zeroSaysOff <;> cases cell <;> simp [SymbolStates]

theorem getElem?_marks_iff {marks : List Mark} {column : Nat}
    (reads : List.Forall₂ (fun symbol mark => Mark.ofSymbol? zeroSaysOff symbol = some mark)
      symbols marks) :
    marks[column]? = some (.states cell) ↔
      ∃ symbol, symbols[column]? = some symbol ∧ SymbolStates zeroSaysOff symbol cell := by
  induction reads generalizing column with
  | nil => simp
  | cons read _ ih =>
      cases column with
      | zero => simp [eq_states_iff read]
      | succ column => simpa using ih

/-- The statements of a cube line are on the rows of the cube, by the marks. -/
theorem mem_statements {line : CubeLine} {row column : Nat} :
    ⟨row, column, cell⟩ ∈ line.statements ↔
      row ∈ line.cube.rows ∧ line.marks[column]? = some (.states cell) := by
  simp only [CubeLine.statements, List.mem_flatMap, List.mem_filterMap, Prod.exists,
    List.mem_zipIdx_iff_getElem?, Option.map_eq_some_iff, Statement.mk.injEq]
  constructor
  · rintro ⟨_, mem, mark, _, at_column, _, stated, rfl, rfl, rfl⟩
    cases mark with
    | silent => cases stated
    | states _ =>
        cases stated
        exact ⟨mem, at_column⟩
  · rintro ⟨mem, at_column⟩
    exact ⟨row, mem, _, column, at_column, cell, rfl, rfl, rfl, rfl⟩

end

/-- The statements of a cube line are what the given line states. -/
def IsReadAs (width : Nat) (given : GivenCube) (line : CubeLine) : Prop :=
  ∀ (row column : Nat) (cell : Cell), ⟨row, column, cell⟩ ∈ line.statements ↔
    row < Row.count width ∧ given.States width row column cell

/-- A cube line of well-formed symbols can be read. -/
theorem exists_ofSymbols (given : GivenCube) {inputs outputs : Nat} (number : Nat)
    (isCube : IsCube inputs outputs given.symbols) :
    ∃ line, CubeLine.ofSymbols number inputs outputs given.zeroSaysOff given.symbols = .ok line ∧
      IsReadAs inputs given line := by
  obtain ⟨length_eq, inputs_mem, outputs_mem⟩ := isCube
  have inputsReadable : ∀ symbol ∈ given.symbols.take inputs,
      (Trit.ofSymbol? symbol).isSome = true := by
    have all : ∀ symbol ∈ ['0', '1', '-'], (Trit.ofSymbol? symbol).isSome = true :=
      List.all_eq_true.mp (by decide)
    exact fun symbol mem => all symbol (inputs_mem symbol mem)
  have outputsReadable : ∀ symbol ∈ given.symbols.drop inputs,
      (Mark.ofSymbol? given.zeroSaysOff symbol).isSome = true := by
    have all : ∀ zeroSaysOff, ∀ symbol ∈ ['0', '1', '-', '2', '~'],
        (Mark.ofSymbol? zeroSaysOff symbol).isSome = true := fun zeroSaysOff =>
      List.all_eq_true.mp (by cases zeroSaysOff <;> decide)
    exact fun symbol mem => all _ symbol (outputs_mem symbol mem)
  obtain ⟨cube, cube_eq, readsCube⟩ :=
    exists_readSymbols .invalidInputCharacter 0 inputsReadable
  obtain ⟨marks, marks_eq, readsMarks⟩ :=
    exists_readSymbols .invalidOutputCharacter 0 outputsReadable
  refine ⟨⟨cube, marks⟩, ?_, ?_⟩
  · rw [CubeLine.ofSymbols, if_pos length_eq, cube_eq, marks_eq]
    rfl
  · intro row column cell
    have width_eq : cube.length = inputs := by
      rw [← readsCube.length_eq, List.length_take]
      omega
    rw [mem_statements, Cube.mem_rows, covers_full_iff_matches readsCube,
      getElem?_marks_iff readsMarks, width_eq, and_assoc]
    simp only [GivenCube.States, List.getElem?_drop]

/-- The statements of several cube lines are what the given lines say. -/
theorem mem_flatMap_statements {width : Nat} {cubes : List GivenCube} {lines : List CubeLine}
    (reads : List.Forall₂ (IsReadAs width) cubes lines) {row column : Nat} {cell : Cell} :
    ⟨row, column, cell⟩ ∈ lines.flatMap CubeLine.statements ↔
      row < Row.count width ∧ Says cubes width row column cell := by
  induction reads with
  | nil => simp [Says]
  | cons read _ ih =>
      rw [List.flatMap_cons, List.mem_append, read, ih]
      simp only [Says, List.mem_cons, exists_eq_or_imp]
      exact and_or_left.symm

/-! ## Collecting lines -/

theorem last?_concat {α : Type} (declares? : Line → Option α) (lines : List Line) (line : Line) :
    last? declares? (lines ++ [line]) = (declares? line).or (last? declares? lines) := by
  rw [last?, last?, List.filterMap_append]
  cases declared : declares? line with
  | none => simp [declared]
  | some value => simp [declared]

/-- Whether a zero says off behind some lines. -/
def styleAfter (zeroSaysOff : Bool) : List Line → Bool
  | [] => zeroSaysOff
  | .style name :: rest => styleAfter (Draft.zeroSaysOffIn name) rest
  | _ :: rest => styleAfter zeroSaysOff rest

theorem styleAfter_append (zeroSaysOff : Bool) (front back : List Line) :
    styleAfter zeroSaysOff (front ++ back) = styleAfter (styleAfter zeroSaysOff front) back := by
  induction front generalizing zeroSaysOff with
  | nil => rfl
  | cons line rest ih => cases line <;> exact ih _

theorem cubesFrom_append (zeroSaysOff : Bool) (front back : List Line) :
    cubesFrom zeroSaysOff (front ++ back) =
      cubesFrom zeroSaysOff front ++ cubesFrom (styleAfter zeroSaysOff front) back := by
  induction front generalizing zeroSaysOff with
  | nil => rfl
  | cons line rest ih => cases line <;> simp [cubesFrom, styleAfter, ih]

/-- A draft holds what some lines declare and the cube lines among them. -/
structure Draft.Collects (draft : Draft) (width : Nat) (lines : List Line) : Prop where
  inputCount?_eq : draft.inputCount? = last? Line.inputCount? lines
  outputCount?_eq : draft.outputCount? = last? Line.outputCount? lines
  inputLabels?_eq : draft.inputLabels? = last? Line.inputLabels? lines
  outputLabels?_eq : draft.outputLabels? = last? Line.outputLabels? lines
  zeroSaysOff_eq : draft.zeroSaysOff = styleAfter false lines
  cubes : List.Forall₂ (IsReadAs width) (cubesOf lines) draft.cubes.toList

variable {lines front back : List Line} {line : Line} {inputs outputs : List String}
  {draft : Draft} {width : Nat}

theorem Draft.collects_empty (width : Nat) : ({} : Draft).Collects width [] where
  inputCount?_eq := rfl
  outputCount?_eq := rfl
  inputLabels?_eq := rfl
  outputLabels?_eq := rfl
  zeroSaysOff_eq := rfl
  cubes := .nil

/-- A draft that has taken in one line more. -/
theorem Draft.Collects.concat (collects : draft.Collects width front) {next : Draft}
    {read : List CubeLine} (inputCount? : next.inputCount? = line.inputCount?.or draft.inputCount?)
    (outputCount? : next.outputCount? = line.outputCount?.or draft.outputCount?)
    (inputLabels? : next.inputLabels? = line.inputLabels?.or draft.inputLabels?)
    (outputLabels? : next.outputLabels? = line.outputLabels?.or draft.outputLabels?)
    (zeroSaysOff : next.zeroSaysOff = styleAfter draft.zeroSaysOff [line])
    (cubes : next.cubes.toList = draft.cubes.toList ++ read)
    (reads : List.Forall₂ (IsReadAs width) (cubesFrom draft.zeroSaysOff [line]) read) :
    next.Collects width (front ++ [line]) where
  inputCount?_eq := by rw [last?_concat, inputCount?, collects.inputCount?_eq]
  outputCount?_eq := by rw [last?_concat, outputCount?, collects.outputCount?_eq]
  inputLabels?_eq := by rw [last?_concat, inputLabels?, collects.inputLabels?_eq]
  outputLabels?_eq := by rw [last?_concat, outputLabels?, collects.outputLabels?_eq]
  zeroSaysOff_eq := by rw [styleAfter_append, zeroSaysOff, collects.zeroSaysOff_eq]
  cubes := by
    rw [cubes, cubesOf, cubesFrom_append, ← collects.zeroSaysOff_eq]
    exact List.rel_append collects.cubes reads

/-- Every line of a well-formed file but the finishing one can be taken. -/
theorem Draft.Collects.exists_take (collects : draft.Collects inputs.length front) (number : Nat)
    (wellFormed : WellFormed (front ++ line :: back) inputs outputs) :
    ∃ next, draft.take number line = .ok next ∧
      next.Collects inputs.length (front ++ [line]) := by
  have mem : line ∈ front ++ line :: back := List.mem_append_right _ List.mem_cons_self
  have append_nil := (List.append_nil draft.cubes.toList).symm
  cases line with
  | nothing | finish =>
      exact ⟨draft, rfl, collects.concat rfl rfl rfl rfl rfl append_nil .nil⟩
  | inputCount value =>
      obtain ⟨count, count_eq⟩ := Option.isSome_iff_exists.mp (wellFormed.inputCounts value mem)
      refine ⟨{ draft with inputCount? := some count }, ?_, ?_⟩
      · rw [take, count_eq]
      · refine collects.concat ?_ rfl rfl rfl rfl append_nil .nil
        rw [Line.inputCount?, count_eq]
        rfl
  | outputCount value =>
      obtain ⟨count, count_eq⟩ := Option.isSome_iff_exists.mp (wellFormed.outputCounts value mem)
      refine ⟨{ draft with outputCount? := some count }, ?_, ?_⟩
      · rw [take, count_eq]
      · refine collects.concat rfl ?_ rfl rfl rfl append_nil .nil
        rw [Line.outputCount?, count_eq]
        rfl
  | inputLabels labels | outputLabels labels | style name =>
      exact ⟨_, rfl, collects.concat rfl rfl rfl rfl rfl append_nil .nil⟩
  | cube symbols =>
      obtain ⟨inputCount_eq, outputCount_eq, isCube⟩ := wellFormed.cubes front symbols back rfl
      obtain ⟨line, line_eq, isRead⟩ :=
        exists_ofSymbols ⟨draft.zeroSaysOff, symbols⟩ number isCube
      refine ⟨{ draft with cubes := draft.cubes.push line }, ?_, ?_⟩
      · rw [take, collects.inputCount?_eq, collects.outputCount?_eq, inputCount_eq, outputCount_eq]
        change (CubeLine.ofSymbols number _ _ draft.zeroSaysOff symbols >>= _) = _
        rw [line_eq]
        rfl
      · exact collects.concat rfl rfl rfl rfl rfl Array.toList_push (.cons isRead .nil)

/-- The lines of a well-formed file can be collected. -/
theorem Draft.Collects.exists_collect {lines : List (List Char)}
    (collects : draft.Collects inputs.length front) (number : Nat)
    (wellFormed : WellFormed (front ++ bodyOf lines) inputs outputs) :
    ∃ final, draft.collect number (lines.map some) = .ok final ∧
      final.Collects inputs.length (front ++ bodyOf lines) := by
  induction lines generalizing front draft number with
  | nil =>
      refine ⟨draft, rfl, ?_⟩
      rw [bodyOf, List.map_nil, List.takeWhile_nil, List.append_nil]
      exact collects
  | cons chars rest ih =>
      rw [List.map_cons, collect]
      by_cases finishes : Line.ofChars chars = .finish
      · have body_eq : bodyOf (chars :: rest) = [] := by
          rw [bodyOf, List.map_cons, List.takeWhile_cons_of_neg (by simp [finishes])]
        rw [finishes, body_eq, List.append_nil]
        exact ⟨draft, rfl, collects⟩
      · have body_eq : bodyOf (chars :: rest) = Line.ofChars chars :: bodyOf rest := by
          rw [bodyOf, List.map_cons, List.takeWhile_cons_of_pos (by simp [finishes]), bodyOf]
        rw [body_eq] at wellFormed ⊢
        obtain ⟨next, next_eq, nextCollects⟩ := collects.exists_take number wellFormed
        rw [List.append_cons] at wellFormed ⊢
        obtain ⟨final, final_eq, finalCollects⟩ := ih nextCollects (number + 1) wellFormed
        refine ⟨final, ?_, finalCollects⟩
        split
        · rename_i finish
          exact absurd finish finishes
        · rw [next_eq]
          exact final_eq

/-- All statements of a well-formed file are on cells of its table. -/
theorem Draft.Collects.isInside {table : Table}
    (collects : draft.Collects table.inputs.length lines)
    (wellFormed : WellFormed lines table.inputs table.outputs) :
    ∀ statement ∈ draft.cubes.toList.flatMap CubeLine.statements, statement.IsInside table := by
  rintro ⟨row, column, cell⟩ mem
  rw [mem_flatMap_statements collects.cubes] at mem
  obtain ⟨row_lt, given, givenMem, -, symbol, at_column, -⟩ := mem
  have lineMem : .cube given.symbols ∈ lines :=
    (mem_map_symbols_iff false).mp (List.mem_map_of_mem givenMem)
  obtain ⟨front, back, lines_eq⟩ := List.append_of_mem lineMem
  have length_eq := (wellFormed.cubes front given.symbols back lines_eq).2.2.length_eq
  obtain ⟨bound, -⟩ := List.getElem?_eq_some_iff.mp at_column
  refine ⟨row_lt, ?_⟩
  change column < table.outputs.length
  omega

/-! ## Reading a file -/

/-- The labels of a well-formed file are taken as they are. -/
theorem labels_eq_ok {side : Side} {letter : String} {count : Nat} {given : Option (List String)}
    {names : List String} (length_eq : names.length = count)
    (names_eq : names = given.getD (numbered letter names.length)) :
    Draft.labels side letter count given = .ok names := by
  subst length_eq
  cases given with
  | none =>
      rw [Draft.labels]
      exact congrArg Except.ok names_eq.symm
  | some labels =>
      obtain rfl : names = labels := names_eq
      rw [Draft.labels, if_pos rfl]

theorem Draft.Collects.exists_blankTable (collects : draft.Collects width lines)
    (wellFormed : WellFormed lines inputs outputs) :
    ∃ table, draft.blankTable = .ok table ∧ table.inputs = inputs ∧ table.outputs = outputs := by
  obtain ⟨table, blank_eq, inputs_eq, outputs_eq⟩ := Table.exists_blank wellFormed.inputs_nodup
    wellFormed.outputs_nodup wellFormed.inputs_le wellFormed.outputs_le
  refine ⟨table, ?_, inputs_eq, outputs_eq⟩
  rw [blankTable, collects.inputCount?_eq, collects.outputCount?_eq, collects.inputLabels?_eq,
    collects.outputLabels?_eq, labels_eq_ok wellFormed.inputs_length wellFormed.inputs_eq,
    labels_eq_ok wellFormed.outputs_length wellFormed.outputs_eq]
  change (Table.blank inputs outputs).mapError ReadError.table = _
  rw [blank_eq]
  rfl

/-- A sheet that agrees with cube lines is turned into a table of their meaning. -/
theorem means_toTable {table : Table} {sheet : Sheet table} {cubes : List GivenCube}
    (agrees : ∀ place : table.Place, Agrees (sheet.knownAt place)
      (Says cubes table.inputs.length place.1 place.2)) : Means sheet.toTable cubes where
  on place := by
    have cell_eq : sheet.toTable.cell place = _ := sheet.cell_toTable place
    rw [cell_eq]
    exact (agrees place).getD_eq_on_iff
  free place := by
    have cell_eq : sheet.toTable.cell place = _ := sheet.cell_toTable place
    rw [cell_eq]
    exact (agrees place).getD_eq_free_iff
  off place := by
    have cell_eq : sheet.toTable.cell place = _ := sheet.cell_toTable place
    rw [cell_eq]
    exact (agrees place).getD_eq_off_iff

/-- A well-formed file without a contradiction is read as the table that it
means; in one with contradictions, reading fails at one of them. -/
theorem readLines_cases {lines : List (List Char)}
    (wellFormed : WellFormed (bodyOf lines) inputs outputs) :
    (∃ table, readLines (lines.map some) = .ok table ∧ table.inputs = inputs ∧
      table.outputs = outputs ∧ Means table (cubesOf (bodyOf lines)) ∧
      ∀ row < Row.count inputs.length, ∀ column < outputs.length,
        ¬ Contradicts (cubesOf (bodyOf lines)) inputs.length row column) ∨
    ∃ row < Row.count inputs.length, ∃ column : Fin outputs.length,
      Contradicts (cubesOf (bodyOf lines)) inputs.length row column ∧
      readLines (lines.map some) = .error (.format
        (.conflictingValue (Row.pattern inputs.length row) (outputs.get column))) := by
  obtain ⟨draft, collect_eq, collects⟩ :=
    (Draft.collects_empty inputs.length).exists_collect 1 wellFormed
  obtain ⟨table, blank_eq, rfl, rfl⟩ := collects.exists_blankTable wellFormed
  have read_eq : readLines (lines.map some) =
      ((draft.cubes.toList.flatMap CubeLine.statements).foldlM Sheet.enter
        (Sheet.empty table)).mapError ReadError.format >>= fun sheet => return sheet.toTable := by
    rw [readLines, collect_eq]
    change draft.toTable = _
    rw [Draft.toTable, blank_eq]
    rfl
  have stated_iff : ∀ (place : table.Place) (cell : Cell),
      StatedIn (draft.cubes.toList.flatMap CubeLine.statements) place cell ↔
        Says (cubesOf (bodyOf lines)) table.inputs.length place.1 place.2 cell := by
    intro place cell
    rw [StatedIn, mem_flatMap_statements collects.cubes]
    exact and_iff_right place.1.isLt
  have entered := (Sheet.reflects_empty table).foldlM (collects.isInside wellFormed)
  rw [read_eq]
  split at entered
  · rename_i sheet sheet_eq
    left
    rw [sheet_eq]
    refine ⟨sheet.toTable, rfl, rfl, rfl, ?_, ?_⟩
    · exact means_toTable fun place => (entered place).congr (stated_iff place)
    · intro row row_lt column column_lt contradicts
      let place : table.Place := (⟨row, row_lt⟩, ⟨column, column_lt⟩)
      exact Sheet.Reflects.not_conflicting entered place
        ⟨(stated_iff place .on).mpr contradicts.1, (stated_iff place .off).mpr contradicts.2⟩
  · rename_i error error_eq
    obtain ⟨place, conflicting, rfl⟩ := entered
    right
    rw [error_eq]
    exact ⟨place.1, place.1.isLt, place.2, ⟨(stated_iff place .on).mp conflicting.1,
      (stated_iff place .off).mp conflicting.2⟩, rfl⟩

theorem Means.congr {table : Table} {cubes otherCubes : List GivenCube}
    (means : Means table cubes) (says_eq : Says otherCubes = Says cubes) :
    Means table otherCubes where
  on place := by rw [says_eq, means.on]
  free place := by rw [says_eq, means.free]
  off place := by rw [says_eq, means.off]

/-- A table is determined by its names and its meaning. -/
theorem Means.ext {table other : Table} {cubes : List GivenCube} (means : Means table cubes)
    (otherMeans : Means other cubes) (inputs_eq : table.inputs = other.inputs)
    (outputs_eq : table.outputs = other.outputs) : table = other := by
  refine Table.ext_cell inputs_eq outputs_eq fun place otherPlace row_eq column_eq => ?_
  cases cell_eq : other.cell otherPlace with
  | on =>
      rw [means.on, inputs_eq, row_eq, column_eq]
      exact (otherMeans.on otherPlace).mp cell_eq
  | off =>
      rw [means.off, inputs_eq, row_eq, column_eq]
      exact (otherMeans.off otherPlace).mp cell_eq
  | free =>
      rw [means.free, inputs_eq, row_eq, column_eq]
      exact (otherMeans.free otherPlace).mp cell_eq

/-! ## The outcome of reading -/

section

variable {text otherText : List (List Char)} {table : Table} {error : ReadError}

/-- Some cube lines of a file contradict each other about a cell of its table. -/
def Contradictory (lines : List Line) (inputs outputs : List String) : Prop :=
  ∃ row < Row.count inputs.length, ∃ column < outputs.length,
    Contradicts (cubesOf lines) inputs.length row column

theorem contradictory_congr
    (says_eq : Says (cubesOf others) = Says (cubesOf lines)) :
    Contradictory others inputs outputs ↔ Contradictory lines inputs outputs := by
  unfold Contradictory Contradicts
  rw [says_eq]

theorem readLines_eq_ok (wellFormed : WellFormed (bodyOf text) inputs outputs)
    (ok : readLines (text.map some) = .ok table) :
    table.inputs = inputs ∧ table.outputs = outputs ∧ Means table (cubesOf (bodyOf text)) ∧
      ¬ Contradictory (bodyOf text) inputs outputs := by
  rcases readLines_cases wellFormed with
    ⟨result, result_eq, inputs_eq, outputs_eq, means, consistent⟩ | ⟨_, _, _, _, error_eq⟩
  · cases ok.symm.trans result_eq
    refine ⟨inputs_eq, outputs_eq, means, ?_⟩
    rintro ⟨row, row_lt, column, column_lt, contradicts⟩
    exact consistent row row_lt column column_lt contradicts
  · cases ok.symm.trans error_eq

theorem readLines_eq_error (wellFormed : WellFormed (bodyOf text) inputs outputs)
    (failed : readLines (text.map some) = .error error) :
    ∃ row < Row.count inputs.length, ∃ column : Fin outputs.length,
      Contradicts (cubesOf (bodyOf text)) inputs.length row column ∧
      error = .format (.conflictingValue (Row.pattern inputs.length row) (outputs.get column)) := by
  rcases readLines_cases wellFormed with ⟨_, result_eq, _⟩ |
    ⟨row, row_lt, column, contradicts, error_eq⟩
  · cases failed.symm.trans result_eq
  · cases failed.symm.trans error_eq
    exact ⟨row, row_lt, column, contradicts, rfl⟩

/-- Reading fails exactly at files that contradict themselves. -/
theorem exists_readLines_eq_error_iff (wellFormed : WellFormed (bodyOf text) inputs outputs) :
    (∃ error, readLines (text.map some) = .error error) ↔
      Contradictory (bodyOf text) inputs outputs := by
  constructor
  · rintro ⟨error, failed⟩
    obtain ⟨row, row_lt, column, contradicts, -⟩ := readLines_eq_error wellFormed failed
    exact ⟨row, row_lt, column, column.isLt, contradicts⟩
  · intro contradictory
    cases outcome : readLines (text.map some) with
    | error error => exact ⟨error, rfl⟩
    | ok table => exact absurd contradictory (readLines_eq_ok wellFormed outcome).2.2.2

/-- A file is read like one that says the same about the same names. -/
theorem readLines_eq_ok_of_says_eq (wellFormed : WellFormed (bodyOf text) inputs outputs)
    (otherWellFormed : WellFormed (bodyOf otherText) inputs outputs)
    (says_eq : Says (cubesOf (bodyOf otherText)) = Says (cubesOf (bodyOf text)))
    (ok : readLines (text.map some) = .ok table) : readLines (otherText.map some) = .ok table := by
  obtain ⟨inputs_eq, outputs_eq, means, consistent⟩ := readLines_eq_ok wellFormed ok
  cases outcome : readLines (otherText.map some) with
  | error error =>
      have contradictory := (exists_readLines_eq_error_iff otherWellFormed).mp ⟨error, outcome⟩
      exact absurd ((contradictory_congr says_eq).mp contradictory) consistent
  | ok other =>
      obtain ⟨otherInputs_eq, otherOutputs_eq, otherMeans, -⟩ :=
        readLines_eq_ok otherWellFormed outcome
      have same : other = table := otherMeans.ext (means.congr says_eq)
        (otherInputs_eq.trans inputs_eq.symm) (otherOutputs_eq.trans outputs_eq.symm)
      rw [same]

end

end Switching.Pla
