import Switching.Pla.Writer
import Switching.Proofs.Pla.Meaning
import Switching.Proofs.Text.Words

/-!
# Reading what was written

A table is written with one cube line for each row, in the style in which zeros
count.  Its text is well formed and means the table if its names are words;
then reading the text gives the table back.  All names that are ever read are
words, so a table with another name is not read back.
-/

namespace Switching.Pla

open Text (IsWord)

/-! ## Written lines -/

/-- A line without a line feed in it that is read as a given one. -/
def Writes (line : String) (parsed : Line) : Prop :=
  '\n' ∉ line.toList ∧ Line.ofChars line.toList = parsed

/-- The line of some cube symbols, which says nothing if there are none. -/
def symbolsLine (symbols : List Char) : Line :=
  if symbols.isEmpty then .nothing else .cube symbols

/-- The symbols of a row. -/
def rowSymbols (entry : String × List Cell) : List Char :=
  entry.1.toList ++ entry.2.map cellSymbol

/-- The line that lists labels, which is left out when there are none. -/
def labelsLine (line : List String → Line) (labels : List String) : List Line :=
  if labels.isEmpty then [] else [line labels]

/-- What the lines of a written table say in front of the rows. -/
def writtenHead (table : Table) : List Line :=
  [.inputCount (toString table.inputs.length), .outputCount (toString table.outputs.length)] ++
    labelsLine .inputLabels table.inputs ++ labelsLine .outputLabels table.outputs ++
    [.style "fr", .nothing]

/-- What the lines of a written table say in front of the finishing one. -/
def writtenBody (table : Table) : List Line :=
  writtenHead table ++ (table.entries.map rowSymbols).map symbolsLine

variable {table : Table} {line : Line} {lines : List String} {parsed : List Line}

theorem map_ofChars_of_writes (writes : List.Forall₂ Writes lines parsed) :
    lines.map (Line.ofChars ∘ String.toList) = parsed := by
  induction writes with
  | nil => rfl
  | cons first _ ih => rw [List.map_cons, ih, Function.comp_apply, first.2]

theorem forall_mem_of_writes (writes : List.Forall₂ Writes lines parsed) :
    ∀ line ∈ lines, '\n' ∉ line.toList := by
  induction writes with
  | nil => simp
  | cons first _ ih => exact List.forall_mem_cons.mpr ⟨first.1, ih⟩

/-- The text of lines up to a finishing one. -/
theorem body_join (writes : List.Forall₂ Writes lines (parsed ++ [.finish]))
    (unfinished : .finish ∉ parsed) :
    body (String.join (lines.map (· ++ "\n"))) = parsed := by
  have counts : ∀ line ∈ parsed, decide (line ≠ .finish) = true := fun line mem =>
    decide_eq_true (ne_of_mem_of_not_mem mem unfinished)
  rw [body, bodyOf, Text.lines_toList_join (forall_mem_of_writes writes), List.map_append,
    List.map_map, map_ofChars_of_writes writes, List.append_assoc,
    List.takeWhile_append_of_pos counts]
  exact List.append_nil parsed

/-- A directive that is written with its values. -/
theorem writes_words (first : String) (rest : List String)
    (areWords : ∀ word ∈ first :: rest, IsWord word) (directive : first.toList.head? = some '.') :
    Writes (" ".intercalate (first :: rest)) (.ofWords (first :: rest)) := by
  obtain ⟨name, name_eq⟩ := List.head?_eq_some_iff.mp directive
  have chars_eq : ∃ chars, (" ".intercalate (first :: rest)).toList = '.' :: chars := by
    cases rest <;> simp [name_eq]
  obtain ⟨chars, chars_eq⟩ := chars_eq
  refine ⟨Text.not_mem_intercalate areWords (by decide) (by decide), ?_⟩
  rw [Line.ofChars, Text.trim_intercalate areWords, chars_eq]
  change Line.ofWords (Text.words ('.' :: chars)) = _
  rw [← chars_eq, Text.words_intercalate areWords]

/-- A line of bits, dashes and spaces is a cube line, or empty. -/
theorem ofChars_eq_symbolsLine {chars : List Char}
    (plain : ∀ c ∈ chars, c ∈ [' ', '0', '1', '-']) :
    Line.ofChars chars = symbolsLine (Line.symbols chars) := by
  have symbols_eq : Line.symbols (Text.trim chars) = Line.symbols chars :=
    Text.filter_trim (fun c blank => by simp [blank]) chars
  rw [← symbols_eq, Line.ofChars]
  cases trim_eq : Text.trim chars with
  | nil => rfl
  | cons c rest =>
      obtain ⟨symbol, mem, visible⟩ := Text.exists_mem_trim (trim_eq ▸ List.cons_ne_nil c rest)
      have symbolsNonempty : Line.symbols (c :: rest) ≠ [] := by
        have noBar : ∀ c ∈ [' ', '0', '1', '-'], (c != '|') = true :=
          List.all_eq_true.mp (by decide)
        refine List.ne_nil_of_mem (List.mem_filter.mpr ⟨trim_eq ▸ mem, ?_⟩)
        rw [visible, noBar symbol (plain symbol (Text.mem_of_mem_trim mem))]
        rfl
      have first : c ∈ [' ', '0', '1', '-'] :=
        plain c (Text.mem_of_mem_trim (trim_eq ▸ List.mem_cons_self))
      rw [symbolsLine, if_neg (by simpa using symbolsNonempty)]
      simp only [List.mem_cons, List.not_mem_nil, or_false] at first
      rcases first with rfl | rfl | rfl | rfl <;> rfl

/-- A row that is written. -/
theorem writes_row (entry : String × List Cell) (bits : ∀ c ∈ entry.1.toList, c ∈ ['0', '1']) :
    Writes (rowLine entry) (symbolsLine (rowSymbols entry)) := by
  have chars_eq : (rowLine entry).toList =
      entry.1.toList ++ ' ' :: entry.2.map cellSymbol := by
    simp [rowLine]
  have plain : ∀ c ∈ rowSymbols entry, c ∈ ['0', '1', '-'] := by
    intro c mem
    rcases List.mem_append.mp mem with mem | mem
    · exact List.mem_append_left ['-'] (bits c mem)
    · obtain ⟨cell, -, rfl⟩ := List.mem_map.mp mem
      cases cell <;> decide
  have spaced : ∀ c ∈ (rowLine entry).toList, c ∈ [' ', '0', '1', '-'] := by
    intro c mem
    rw [chars_eq] at mem
    simp only [rowSymbols, List.mem_append, List.mem_cons] at mem plain ⊢
    grind
  have symbols_eq : Line.symbols (rowLine entry).toList = rowSymbols entry := by
    have kept : ∀ c ∈ ['0', '1', '-'], (!Text.isBlank c && c != '|') = true :=
      List.all_eq_true.mp (by decide)
    have all : Line.symbols (rowSymbols entry) = rowSymbols entry :=
      List.filter_eq_self.mpr fun c mem => kept c (plain c mem)
    rw [chars_eq, Line.symbols, List.filter_append, List.filter_cons_of_neg (by decide),
      ← List.filter_append]
    exact all
  refine ⟨fun mem => ?_, ?_⟩
  · exact absurd (spaced '\n' mem) (by decide)
  · rw [ofChars_eq_symbolsLine spaced, symbols_eq]

/-! ## The text of a table -/

/-- All names of a table are words. -/
def Worded (table : Table) : Prop :=
  ∀ name ∈ table.inputs ++ table.outputs, IsWord name

/-- The rows of a table, as they are written. -/
theorem mem_entries {entry : String × List Cell} :
    entry ∈ table.entries ↔ ∃ row : Fin table.rowCount,
      entry = (Row.pattern table.inputs.length row, table.rows[row].toList) := by
  simp only [Table.entries, List.mem_map, Prod.exists, List.mem_zipIdx_iff_getElem?,
    Vector.getElem?_toList]
  constructor
  · rintro ⟨cells, index, at_index, rfl⟩
    obtain ⟨index_lt, rfl⟩ := Vector.getElem?_eq_some_iff.mp at_index
    exact ⟨⟨index, index_lt⟩, rfl⟩
  · rintro ⟨row, rfl⟩
    exact ⟨table.rows[row], row, Vector.getElem?_eq_getElem row.isLt, rfl⟩

theorem mem_bits_of_mem_pattern {width row : Nat} {c : Char}
    (mem : c ∈ (Row.pattern width row).toList) : c ∈ ['0', '1'] := by
  rw [Row.pattern, String.toList_ofList] at mem
  obtain ⟨bit, -, rfl⟩ := List.mem_map.mp mem
  cases bit <;> decide

theorem writes_labels {directive : String} {labels : List String} {line : List String → Line}
    (areWords : ∀ label ∈ labels, IsWord label) (isWord : IsWord directive)
    (isDirective : directive.toList.head? = some '.')
    (ofWords : ∀ labels, Line.ofWords (directive :: labels) = line labels) :
    List.Forall₂ Writes (labelLine directive labels) (labelsLine line labels) := by
  cases labels with
  | nil => exact .nil
  | cons label rest =>
      have writes := writes_words directive (label :: rest)
        (List.forall_mem_cons.mpr ⟨isWord, areWords⟩) isDirective
      rw [ofWords, String.intercalate_cons_cons] at writes
      exact .cons writes .nil

theorem writes_number (directive : String) (number : Nat) (isWord : IsWord directive)
    (isDirective : directive.toList.head? = some '.') :
    Writes (directive ++ " " ++ toString number) (.ofWords [directive, toString number]) := by
  have areWords : ∀ word ∈ [directive, toString number], IsWord word :=
    List.forall_mem_cons.mpr ⟨isWord, List.forall_mem_singleton.mpr (Text.isWord_toString number)⟩
  have writes := writes_words _ _ areWords isDirective
  rwa [String.intercalate_cons_cons, String.intercalate_singleton] at writes

/-- The lines of a table whose names are words. -/
theorem writes_writtenLines (worded : Worded table) :
    List.Forall₂ Writes (writtenLines table) (writtenBody table ++ [.finish]) := by
  rw [Worded, List.forall_mem_append] at worded
  have counts : List.Forall₂ Writes
      [".i " ++ toString table.inputs.length, ".o " ++ toString table.outputs.length]
      [.inputCount (toString table.inputs.length), .outputCount (toString table.outputs.length)] :=
    .cons (writes_number ".i" _ (by decide) rfl)
      (.cons (writes_number ".o" _ (by decide) rfl) .nil)
  have inputLabels : List.Forall₂ Writes (labelLine ".ilb" table.inputs)
      (labelsLine .inputLabels table.inputs) :=
    writes_labels worded.1 (by decide) rfl fun _ => rfl
  have outputLabels : List.Forall₂ Writes (labelLine ".ob" table.outputs)
      (labelsLine .outputLabels table.outputs) :=
    writes_labels worded.2 (by decide) rfl fun _ => rfl
  have style : List.Forall₂ Writes [".type fr", ".p " ++ toString table.rowCount]
      [.style "fr", .nothing] := by
    have typeLine : Writes ".type fr" (.style "fr") :=
      writes_words ".type" ["fr"] (by decide) rfl
    exact .cons typeLine (.cons (writes_number ".p" _ (by decide) rfl) .nil)
  have rows : List.Forall₂ Writes (table.entries.map rowLine)
      ((table.entries.map rowSymbols).map symbolsLine) := by
    rw [List.map_map, List.forall₂_map_left_iff, List.forall₂_map_right_iff, List.forall₂_same]
    intro entry mem
    obtain ⟨row, rfl⟩ := mem_entries.mp mem
    exact writes_row _ fun c => mem_bits_of_mem_pattern
  have finish : List.Forall₂ Writes [".e"] [.finish] := by
    have finishLine : Writes ".e" .finish := writes_words ".e" [] (by decide) rfl
    exact .cons finishLine .nil
  exact List.rel_append (List.rel_append (List.rel_append (List.rel_append (List.rel_append
    counts inputLabels) outputLabels) style) rows) finish

/-- What can stand in front of the rows. -/
theorem mem_writtenHead (mem : line ∈ writtenHead table) :
    line = .inputCount (toString table.inputs.length) ∨
      line = .outputCount (toString table.outputs.length) ∨
      line = .inputLabels table.inputs ∨ line = .outputLabels table.outputs ∨
      line = .style "fr" ∨ line = .nothing := by
  have labels : ∀ {directive : List String → Line} {labels : List String},
      line ∈ labelsLine directive labels → line = directive labels := by
    intro directive labels mem
    unfold labelsLine at mem
    split at mem
    · cases mem
    · exact List.mem_singleton.mp mem
  simp only [writtenHead, List.mem_append, List.mem_cons, List.not_mem_nil, or_false] at mem
  rcases mem with (((mem | mem) | mem) | mem) | mem
  all_goals grind

theorem body_write (worded : Worded table) : body (write table) = writtenBody table := by
  refine body_join (writes_writtenLines worded) fun mem => ?_
  rcases List.mem_append.mp mem with mem | mem
  · simpa using mem_writtenHead mem
  · obtain ⟨symbols, -, same⟩ := List.mem_map.mp mem
    unfold symbolsLine at same
    split at same <;> cases same

/-! ## The meaning of a written table -/

/-- The symbols of a row of a table. -/
def symbolsAt (table : Table) (row : Fin table.rowCount) : List Char :=
  (Row.bits table.inputs.length row).map Row.bitSymbol ++ table.rows[row].toList.map cellSymbol

theorem mem_map_rowSymbols {symbols : List Char} :
    symbols ∈ table.entries.map rowSymbols ↔
      ∃ row : Fin table.rowCount, symbols = symbolsAt table row := by
  have rowSymbols_eq : ∀ row : Fin table.rowCount,
      rowSymbols (Row.pattern table.inputs.length row, table.rows[row].toList) =
        symbolsAt table row := by
    intro row
    rw [rowSymbols, Row.pattern, String.toList_ofList, symbolsAt]
  simp only [List.mem_map, mem_entries]
  constructor
  · rintro ⟨_, ⟨row, rfl⟩, rfl⟩
    exact ⟨row, rowSymbols_eq row⟩
  · rintro ⟨row, rfl⟩
    exact ⟨_, ⟨row, rfl⟩, rowSymbols_eq row⟩

theorem mem_cubesFrom_map_symbolsLine {given : GivenCube} {zeroSaysOff : Bool}
    {rows : List (List Char)} :
    given ∈ cubesFrom zeroSaysOff (rows.map symbolsLine) ↔
      ∃ symbols ∈ rows, symbols ≠ [] ∧ given = ⟨zeroSaysOff, symbols⟩ := by
  induction rows with
  | nil => simp [cubesFrom]
  | cons symbols rest ih =>
      rw [List.map_cons, symbolsLine]
      split
      · rename_i empty
        rw [List.isEmpty_iff] at empty
        simp [cubesFrom, ih, empty]
      · rename_i nonempty
        rw [List.isEmpty_iff] at nonempty
        simp [cubesFrom, ih, nonempty]

/-- In front of the rows there are no cube lines. -/
theorem cubesFrom_writtenHead (table : Table) : cubesFrom false (writtenHead table) = [] := by
  unfold writtenHead labelsLine
  split <;> split <;> rfl

theorem styleAfter_writtenHead (table : Table) : styleAfter false (writtenHead table) = true := by
  unfold writtenHead labelsLine
  split <;> split <;> rfl

/-- The cube lines of a written table: its rows, unless there is nothing in
them. -/
theorem mem_cubesOf_writtenBody {given : GivenCube} :
    given ∈ cubesOf (writtenBody table) ↔ ∃ row : Fin table.rowCount,
      symbolsAt table row ≠ [] ∧ given = ⟨true, symbolsAt table row⟩ := by
  rw [cubesOf, writtenBody, cubesFrom_append, cubesFrom_writtenHead, styleAfter_writtenHead,
    List.nil_append, mem_cubesFrom_map_symbolsLine]
  simp only [mem_map_rowSymbols]
  constructor
  · rintro ⟨_, ⟨row, rfl⟩, nonempty, rfl⟩
    exact ⟨row, nonempty, rfl⟩
  · rintro ⟨row, nonempty, rfl⟩
    exact ⟨_, ⟨row, rfl⟩, nonempty, rfl⟩

theorem matches_map_bitSymbol {bits other : List Bool} :
    Matches (bits.map Row.bitSymbol) other ↔ bits = other := by
  have same : (fun bit other : Bool => Row.bitSymbol bit = '-' ∨
      Row.bitSymbol bit = Row.bitSymbol other) = Eq := by
    funext bit other
    cases bit <;> cases other <;> decide
  rw [Matches, List.forall₂_map_left_iff, same, List.forall₂_eq_eq_eq]

theorem symbolStates_cellSymbol {known cell : Cell} :
    SymbolStates true (cellSymbol known) cell ↔ known = cell := by
  cases known <;> cases cell <;> simp [SymbolStates, cellSymbol]

theorem take_symbolsAt (row : Fin table.rowCount) :
    (symbolsAt table row).take table.inputs.length =
      (Row.bits table.inputs.length row).map Row.bitSymbol := by
  rw [symbolsAt, List.take_left']
  simp

theorem drop_symbolsAt (row : Fin table.rowCount) :
    (symbolsAt table row).drop table.inputs.length = table.rows[row].toList.map cellSymbol := by
  rw [symbolsAt, List.drop_left']
  simp

theorem getElem?_symbolsAt (place : table.Place) :
    (symbolsAt table place.1)[table.inputs.length + place.2.val]? =
      some (cellSymbol (table.cell place)) := by
  rw [← List.getElem?_drop, drop_symbolsAt]
  simp [Table.cell]

/-- The rows of a written table say what is in its cells. -/
theorem says_writtenBody {place : table.Place} {cell : Cell} :
    Says (cubesOf (writtenBody table)) table.inputs.length place.1 place.2 cell ↔
      table.cell place = cell := by
  constructor
  · rintro ⟨given, mem, isMatch, symbol, at_column, states⟩
    obtain ⟨row, -, rfl⟩ := mem_cubesOf_writtenBody.mp mem
    rw [take_symbolsAt, matches_map_bitSymbol] at isMatch
    obtain rfl : row = place.1 := Fin.ext (Row.eq_of_bits_eq
      (Nat.le_trans table.inputs_le (by decide)) row.isLt place.1.isLt isMatch)
    rw [getElem?_symbolsAt] at at_column
    cases at_column
    exact symbolStates_cellSymbol.mp states
  · intro cell_eq
    have at_column := getElem?_symbolsAt place
    refine ⟨_, mem_cubesOf_writtenBody.mpr ⟨place.1, ?_, rfl⟩, ?_, _, at_column,
      symbolStates_cellSymbol.mpr cell_eq⟩
    · intro empty
      rw [empty] at at_column
      cases at_column
    · rw [take_symbolsAt, matches_map_bitSymbol]

theorem means_writtenBody : Means table (cubesOf (writtenBody table)) where
  on place := says_writtenBody.symm
  free place := by
    simp only [says_writtenBody]
    cases table.cell place <;> simp
  off place := by
    simp only [says_writtenBody]
    cases table.cell place <;> simp

/-! ## The text is well formed -/

theorem isCube_symbolsAt (row : Fin table.rowCount) :
    IsCube table.inputs.length table.outputs.length (symbolsAt table row) where
  length_eq := by simp [symbolsAt]
  inputs_mem symbol mem := by
    rw [take_symbolsAt] at mem
    obtain ⟨bit, -, rfl⟩ := List.mem_map.mp mem
    cases bit <;> decide
  outputs_mem symbol mem := by
    rw [drop_symbolsAt] at mem
    obtain ⟨cell, -, rfl⟩ := List.mem_map.mp mem
    cases cell <;> decide

/-- Rows declare nothing. -/
theorem last?_append_map_symbolsLine {α : Type} {declares? : Line → Option α}
    (cube : ∀ symbols, declares? (.cube symbols) = none) (nothing : declares? .nothing = none)
    (front : List Line) (rows : List (List Char)) :
    last? declares? (front ++ rows.map symbolsLine) = last? declares? front := by
  have none : (rows.map symbolsLine).filterMap declares? = [] := by
    rw [List.filterMap_eq_nil_iff]
    intro line mem
    obtain ⟨symbols, -, rfl⟩ := List.mem_map.mp mem
    unfold symbolsLine
    split
    · exact nothing
    · exact cube symbols
  rw [last?, List.filterMap_append, none, List.append_nil, last?]

theorem last?_inputCount?_writtenHead (table : Table) :
    last? Line.inputCount? (writtenHead table) = some table.inputs.length := by
  have read : Text.size? table.inputs.length.repr = some table.inputs.length :=
    Text.size?_toString (Nat.lt_of_le_of_lt table.inputs_le (by decide))
  unfold writtenHead labelsLine
  split <;> split <;> simp [last?, List.filterMap_cons, Line.inputCount?, read]

theorem last?_outputCount?_writtenHead (table : Table) :
    last? Line.outputCount? (writtenHead table) = some table.outputs.length := by
  have read : Text.size? table.outputs.length.repr = some table.outputs.length :=
    Text.size?_toString (Nat.lt_of_le_of_lt table.outputs_le (by decide))
  unfold writtenHead labelsLine
  split <;> split <;> simp [last?, List.filterMap_cons, Line.outputCount?, read]

theorem last?_inputLabels?_writtenHead (table : Table) :
    (last? Line.inputLabels? (writtenHead table)).getD (numbered "x" table.inputs.length) =
      table.inputs := by
  unfold writtenHead labelsLine
  split <;> split <;> simp_all [last?, List.filterMap_cons, Line.inputLabels?, numbered]

theorem last?_outputLabels?_writtenHead (table : Table) :
    (last? Line.outputLabels? (writtenHead table)).getD (numbered "y" table.outputs.length) =
      table.outputs := by
  unfold writtenHead labelsLine
  split <;> split <;> simp_all [last?, List.filterMap_cons, Line.outputLabels?, numbered]

theorem eq_nothing_or_cube_of_mem {rows : List (List Char)} (mem : line ∈ rows.map symbolsLine) :
    line = .nothing ∨ ∃ symbols ∈ rows, line = .cube symbols := by
  obtain ⟨symbols, symbols_mem, rfl⟩ := List.mem_map.mp mem
  unfold symbolsLine
  split
  · exact .inl rfl
  · exact .inr ⟨symbols, symbols_mem, rfl⟩

/-- The cube lines of a written table stand behind all declarations. -/
theorem exists_front {front back : List Line} {symbols : List Char}
    (body_eq : writtenBody table = front ++ .cube symbols :: back) :
    ∃ rows : List (List Char), front = writtenHead table ++ rows.map symbolsLine ∧
      ∃ row : Fin table.rowCount, symbols = symbolsAt table row := by
  have notHead : .cube symbols ∉ writtenHead table := fun mem => by
    simpa using mem_writtenHead mem
  have mem : .cube symbols ∈ (table.entries.map rowSymbols).map symbolsLine := by
    have mem : .cube symbols ∈ writtenBody table := by
      rw [body_eq]
      exact List.mem_append_right _ List.mem_cons_self
    exact (List.mem_append.mp mem).resolve_left notHead
  have isRow : ∃ row : Fin table.rowCount, symbols = symbolsAt table row := by
    rcases eq_nothing_or_cube_of_mem mem with same | ⟨_, symbols_mem, same⟩
    · cases same
    · cases same
      exact mem_map_rowSymbols.mp symbols_mem
  rcases List.append_eq_append_iff.mp body_eq with ⟨rows, rfl, rows_eq⟩ |
    ⟨rest, head_eq, rest_eq⟩
  · obtain ⟨rows, _, -, rfl, -⟩ := List.map_eq_append_iff.mp rows_eq
    exact ⟨rows, rfl, isRow⟩
  · cases rest with
    | nil => exact ⟨[], by simpa using head_eq.symm, isRow⟩
    | cons line rest =>
        cases rest_eq
        exact absurd (head_eq ▸ List.mem_append_right _ List.mem_cons_self) notHead

/-- The text of a table is well formed. -/
theorem wellFormed_writtenBody : WellFormed (writtenBody table) table.inputs table.outputs where
  inputCounts value mem := by
    have same : value = toString table.inputs.length := by
      rcases List.mem_append.mp mem with mem | mem
      · simpa using mem_writtenHead mem
      · simpa using eq_nothing_or_cube_of_mem mem
    rw [same, Text.size?_toString (Nat.lt_of_le_of_lt table.inputs_le (by decide))]
    rfl
  outputCounts value mem := by
    have same : value = toString table.outputs.length := by
      rcases List.mem_append.mp mem with mem | mem
      · simpa using mem_writtenHead mem
      · simpa using eq_nothing_or_cube_of_mem mem
    rw [same, Text.size?_toString (Nat.lt_of_le_of_lt table.outputs_le (by decide))]
    rfl
  inputs_length := by
    rw [writtenBody, last?_append_map_symbolsLine (fun _ => rfl) rfl,
      last?_inputCount?_writtenHead, Option.getD_some]
  outputs_length := by
    rw [writtenBody, last?_append_map_symbolsLine (fun _ => rfl) rfl,
      last?_outputCount?_writtenHead, Option.getD_some]
  inputs_eq := by
    rw [writtenBody, last?_append_map_symbolsLine (fun _ => rfl) rfl,
      last?_inputLabels?_writtenHead]
  outputs_eq := by
    rw [writtenBody, last?_append_map_symbolsLine (fun _ => rfl) rfl,
      last?_outputLabels?_writtenHead]
  inputs_nodup := table.inputs_nodup
  outputs_nodup := table.outputs_nodup
  inputs_le := table.inputs_le
  outputs_le := table.outputs_le
  cubes front symbols back body_eq := by
    obtain ⟨rows, rfl, row, rfl⟩ := exists_front body_eq
    rw [last?_append_map_symbolsLine (fun _ => rfl) rfl, last?_inputCount?_writtenHead,
      last?_append_map_symbolsLine (fun _ => rfl) rfl, last?_outputCount?_writtenHead]
    exact ⟨rfl, rfl, isCube_symbolsAt row⟩

/-- A table whose names are words is read back from its text. -/
theorem read_write (worded : Worded table) : read (write table) = .ok table := by
  have body_eq : bodyOf (Text.lines (write table).toList) = writtenBody table := body_write worded
  have wellFormed : WellFormed (bodyOf (Text.lines (write table).toList))
      table.inputs table.outputs := body_eq ▸ wellFormed_writtenBody
  rcases readLines_cases wellFormed with ⟨other, ok, inputs_eq, outputs_eq, means, -⟩ |
    ⟨row, row_lt, column, contradicts, -⟩
  · rw [body_eq] at means
    have same : other = table := means.ext means_writtenBody inputs_eq outputs_eq
    rw [read, ok, same]
  · let place : table.Place := (⟨row, row_lt⟩, column)
    rw [body_eq] at contradicts
    have on : table.cell place = .on := says_writtenBody.mp contradicts.1
    have off : table.cell place = .off := says_writtenBody.mp contradicts.2
    cases on.symm.trans off

/-! ## Names that are read -/

/-- The labels that a line gives are words. -/
structure Line.Worded (line : Line) : Prop where
  inputs : ∀ labels, line = .inputLabels labels → ∀ name ∈ labels, IsWord name
  outputs : ∀ labels, line = .outputLabels labels → ∀ name ∈ labels, IsWord name

/-- The labels of a draft are words. -/
structure Draft.Worded (draft : Draft) : Prop where
  inputs : ∀ labels, draft.inputLabels? = some labels → ∀ name ∈ labels, IsWord name
  outputs : ∀ labels, draft.outputLabels? = some labels → ∀ name ∈ labels, IsWord name

theorem worded_ofChars (chars : List Char) : (Line.ofChars chars).Worded := by
  have worded_ofWords : ∀ words : List String, (∀ word ∈ words, IsWord word) →
      (Line.ofWords words).Worded := by
    intro words areWords
    have dropped : ∀ word ∈ words.drop 1, IsWord word := fun word mem =>
      areWords word (List.mem_of_mem_drop mem)
    unfold Line.ofWords
    split <;> constructor <;> rintro _ ⟨⟩
    all_goals exact dropped
  unfold Line.ofChars
  split
  · constructor <;> rintro _ ⟨⟩
  · constructor <;> rintro _ ⟨⟩
  · exact worded_ofWords _ fun word mem => Text.isWord_of_mem_words mem
  · constructor <;> rintro _ ⟨⟩

theorem Draft.Worded.take {draft next : Draft} (worded : draft.Worded) (lineWorded : line.Worded)
    {number : Nat} (ok : draft.take number line = .ok next) : next.Worded := by
  cases line with
  | nothing | finish | style =>
      cases ok
      exact ⟨worded.inputs, worded.outputs⟩
  | inputLabels labels =>
      cases ok
      refine ⟨?_, worded.outputs⟩
      rintro _ ⟨⟩
      exact lineWorded.inputs labels rfl
  | outputLabels labels =>
      cases ok
      refine ⟨worded.inputs, ?_⟩
      rintro _ ⟨⟩
      exact lineWorded.outputs labels rfl
  | inputCount value | outputCount value =>
      rw [Draft.take] at ok
      split at ok <;> cases ok
      exact ⟨worded.inputs, worded.outputs⟩
  | cube symbols =>
      rw [Draft.take] at ok
      split at ok
      · cases ok
      · cases ok
      · obtain ⟨cube, -, next_eq⟩ := bind_eq_ok_iff.mp ok
        cases next_eq
        exact ⟨worded.inputs, worded.outputs⟩

theorem Draft.Worded.collect {draft final : Draft} (worded : draft.Worded)
    {chars : List (Option (List Char))} {number : Nat}
    (ok : draft.collect number chars = .ok final) : final.Worded := by
  induction chars generalizing draft number with
  | nil =>
      cases ok
      exact worded
  | cons first rest ih =>
      cases first with
      | none => cases ok
      | some first =>
          rw [Draft.collect] at ok
          split at ok
          · cases ok
            exact worded
          · obtain ⟨next, taken, ok⟩ := bind_eq_ok_iff.mp ok
            exact ih (worded.take (worded_ofChars first) (mapError_eq_ok_iff.mp taken)) ok

theorem isWord_of_labels {side : Side} {letter : String} {count : Nat}
    {given : Option (List String)} {names : List String} (isLetter : IsWord letter)
    (worded : ∀ labels, given = some labels → ∀ name ∈ labels, IsWord name)
    (ok : Draft.labels side letter count given = .ok names) : ∀ name ∈ names, IsWord name := by
  cases given with
  | none =>
      cases ok
      intro name mem
      obtain ⟨number, -, rfl⟩ := List.mem_map.mp mem
      exact isLetter.append (Text.isWord_toString number)
  | some labels =>
      rw [Draft.labels] at ok
      split at ok <;> cases ok
      exact worded _ rfl

/-- All names in a table that was read are words. -/
theorem worded_of_readLines {chars : List (Option (List Char))}
    (ok : readLines chars = .ok table) : Worded table := by
  simp only [readLines, Draft.toTable, Draft.blankTable, bind_eq_ok_iff, mapError_eq_ok_iff] at ok
  obtain ⟨draft, collected, blank, ⟨inputs, inputs_ok, outputs, outputs_ok, blank_ok⟩,
    sheet, -, table_eq⟩ := ok
  have worded : draft.Worded := Draft.Worded.collect ⟨by simp, by simp⟩ collected
  obtain ⟨rfl, rfl⟩ := Table.names_blank blank_ok
  cases table_eq
  rw [Worded, List.forall_mem_append]
  exact ⟨isWord_of_labels (by decide) worded.inputs inputs_ok,
    isWord_of_labels (by decide) worded.outputs outputs_ok⟩

/-- A table is read back from its text exactly if its names are words, as they
are in all tables that were read. -/
theorem read_write_iff :
    (∀ table, read (write table) = .ok table ↔ ∀ name ∈ table.inputs ++ table.outputs,
      name ≠ "" ∧ ∀ c ∈ name.toList, Text.isBlank c = false) ∧
    (∀ text table, read text = .ok table → read (write table) = .ok table) ∧
    ∀ bytes table, readBytes bytes = .ok table → read (write table) = .ok table := by
  refine ⟨fun table => ⟨worded_of_readLines, read_write⟩, ?_, ?_⟩
  · intro text table ok
    exact read_write (worded_of_readLines ok)
  · intro bytes table ok
    exact read_write (worded_of_readLines ok)

/-- A text with comments, overlapping cube lines and no labels. -/
def scatteredText : String :=
  "# two halves\n.i 2\n.o 1\n 1 - | 1\n\n-0 -\n.end\nrest"

/-- Its table has the names `x0`, `x1` and `y0`, and is read back. -/
theorem scatteredText_read_write :
    ∃ table, read scatteredText = .ok table ∧ read (write table) = .ok table := by
  have isOk : (read scatteredText).isOk = true := by decide +kernel
  cases ok : read scatteredText with
  | error error => rw [ok] at isOk; cases isOk
  | ok table => exact ⟨table, rfl, read_write_iff.2.1 scatteredText table ok⟩

end Switching.Pla
