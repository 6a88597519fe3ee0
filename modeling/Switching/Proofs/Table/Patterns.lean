import Switching.Proofs.Table.Rows
import Switching.Table.Basic

/-!
# Patterns of rows

The patterns of a table are the texts of as many zeros and ones as it has
inputs.  Every pattern belongs to exactly one row, and looking up a pattern
finds that row: its cells and its assignment.
-/

namespace Switching

namespace Row

variable {width : Nat} {pattern : String}

/-- The texts of `width` zeros and ones. -/
def IsPattern (width : Nat) (pattern : String) : Prop :=
  pattern.toList.length = width ∧ ∀ c ∈ pattern.toList, c = '0' ∨ c = '1'

instance (width : Nat) (pattern : String) : Decidable (IsPattern width pattern) :=
  inferInstanceAs (Decidable (_ ∧ _))

@[simp]
theorem bit?_bitSymbol (bit : Bool) : bit? (bitSymbol bit) = some bit := by
  cases bit <;> rfl

theorem bitSymbol_of_bit? {c : Char} {bit : Bool} (read : bit? c = some bit) :
    bitSymbol bit = c := by
  unfold bit? at read
  split at read <;> cases read <;> rfl

@[simp]
theorem toList_pattern (width index : Nat) :
    (Row.pattern width index).toList = (bits width index).map bitSymbol :=
  String.toList_ofList

/-- The characters that are read are the symbols of the bits. -/
theorem mapM_bit?_eq_some_iff {chars : List Char} {read : List Bool} :
    chars.mapM bit? = some read ↔ read.map bitSymbol = chars :=
  mapM_eq_some_iff_map_eq fun _ _ =>
    ⟨bitSymbol_of_bit?, fun symbol_eq => symbol_eq ▸ bit?_bitSymbol _⟩

theorem utf8Length_map_bitSymbol (list : List Bool) :
    Text.utf8Length (list.map bitSymbol) = list.length := by
  induction list with
  | nil => rfl
  | cons bit rest ih =>
      rw [List.map_cons, Text.utf8Length_cons, ih, List.length_cons, Nat.add_comm]
      cases bit <;> rfl

/-- A pattern is read as the bits that it writes. -/
theorem readBits_eq_ok_iff {read : List Bool} :
    readBits pattern width = .ok read ↔
      read.length = width ∧ read.map bitSymbol = pattern.toList := by
  constructor
  · intro read_eq
    refine ⟨length_of_readBits read_eq, ?_⟩
    unfold readBits at read_eq
    split at read_eq
    · split at read_eq
      · rename_i chars_eq
        cases read_eq
        exact mapM_bit?_eq_some_iff.mp chars_eq
      · cases read_eq
    · cases read_eq
  · rintro ⟨rfl, symbols_eq⟩
    rw [readBits, ← symbols_eq, if_pos (utf8Length_map_bitSymbol read),
      mapM_bit?_eq_some_iff.mpr rfl]

/-- Looking up a pattern finds the row to which the pattern belongs. -/
theorem index_eq_ok_iff (fits : width ≤ 64) {row : Fin (count width)} :
    index pattern width = .ok row ↔ Row.pattern width row = pattern := by
  rw [← String.toList_inj, toList_pattern]
  have reads (symbols_eq : (bits width row).map bitSymbol = pattern.toList) :
      readBits pattern width = .ok (bits width row) :=
    readBits_eq_ok_iff.mpr ⟨length_bits width row, symbols_eq⟩
  unfold index
  split
  · rename_i read read_eq
    constructor
    · intro row_eq
      cases row_eq
      obtain ⟨rfl, symbols_eq⟩ := readBits_eq_ok_iff.mp read_eq
      exact (congrArg _ (bits_ofBits fits)).trans symbols_eq
    · intro symbols_eq
      obtain rfl : read = bits width row := Except.ok.inj (read_eq.symm.trans (reads symbols_eq))
      exact congrArg Except.ok (Fin.ext (ofBits_bits fits row.isLt))
  · rename_i error error_eq
    refine ⟨nofun, fun symbols_eq => ?_⟩
    cases error_eq.symm.trans (reads symbols_eq)

/-- Every pattern belongs to a row. -/
theorem isPattern_iff (fits : width ≤ 64) :
    IsPattern width pattern ↔ ∃ row : Fin (count width), Row.pattern width row = pattern := by
  constructor
  · rintro ⟨length_eq, digits⟩
    have symbols_eq : (pattern.toList.map (· == '1')).map bitSymbol = pattern.toList := by
      rw [List.map_map]
      refine (List.map_congr_left fun c mem => ?_).trans (List.map_id _)
      rcases digits c mem with rfl | rfl <;> rfl
    obtain ⟨row, bound, bits_eq⟩ :=
      exists_bits_eq fits ((List.length_map (· == '1')).trans length_eq)
    refine ⟨⟨row, bound⟩, String.toList_inj.mp ?_⟩
    rw [toList_pattern, bits_eq, symbols_eq]
  · rintro ⟨row, rfl⟩
    rw [IsPattern, toList_pattern]
    refine ⟨by simp, fun c mem => ?_⟩
    obtain ⟨bit, -, rfl⟩ := List.mem_map.mp mem
    cases bit
    · exact .inl rfl
    · exact .inr rfl

/-- The inputs have the values that the pattern of a row writes. -/
theorem map_value?_assignment {names : List String} (nodup : names.Nodup) (index : Nat) :
    names.map (assignment names index).value? =
      (Row.pattern names.length index).toList.map fun c => some (c == '1') := by
  refine (map_value?_assignBits nodup (length_bits names.length index)).trans ?_
  rw [toList_pattern, List.map_map]
  refine List.map_congr_left fun bit _ => ?_
  cases bit <;> rfl

/-- The pattern of a row leads to the assignment of the row. -/
theorem assignmentOfPattern_pattern {names : List String} (fits : names.length ≤ 64)
    (row : Fin (count names.length)) :
    assignmentOfPattern (Row.pattern names.length row) names = .ok (assignment names row) := by
  rw [assignmentOfPattern, (index_eq_ok_iff fits).mpr rfl]
  rfl

end Row

namespace Table

variable (table : Table)

theorem width_le : table.inputs.length ≤ 64 :=
  Nat.le_trans table.inputs_le (by decide)

variable {table} {output : String} {column : Fin table.outputCount}

/-- The names of the outputs are different, so a name stands for one column. -/
theorem outputIndex_eq_ok_iff :
    table.outputIndex output = .ok column ↔ table.outputs.get column = output := by
  unfold outputIndex
  cases found : table.outputs.finIdxOf? output with
  | none =>
      have absent := List.finIdxOf?_eq_none_iff.mp found
      simp only [reduceCtorEq, false_iff]
      exact fun same => absent (same ▸ List.get_mem _ _)
  | some first =>
      obtain ⟨first_eq, -⟩ := List.finIdxOf?_eq_some_iff.mp found
      rw [Except.ok.injEq]
      constructor
      · rintro rfl
        exact first_eq
      · intro same
        have index_eq := (List.getElem_inj table.outputs_nodup).mp (first_eq.trans same.symm)
        exact Fin.ext index_eq

theorem exists_outputIndex (mem : output ∈ table.outputs) :
    ∃ column, table.outputIndex output = .ok column :=
  (List.get_of_mem mem).imp fun _ => outputIndex_eq_ok_iff.mpr

/-- The cell for the pattern of a row is the one in that row. -/
theorem value_pattern (column_eq : table.outputIndex output = .ok column)
    (row : Fin table.rowCount) :
    table.value (Row.pattern table.inputs.length row) output = .ok (table.cell (row, column)) := by
  rw [value, place, (Row.index_eq_ok_iff table.width_le).mpr rfl, column_eq]
  rfl

end Table

end Switching
