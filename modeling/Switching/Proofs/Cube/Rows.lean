import Switching.Proofs.Cube.Containment
import Switching.Proofs.Table.Rows

/-!
# Rows of a cube

Listing the rows of a cube doubles an index at every place, from the most
significant input on.  The rows in the list are exactly those whose full cubes
the cube contains, in strictly ascending order.  Going through the text of a
cube once, and keeping the list of the indices that begin as the symbols so far
say, gives the same list as long as indices fit into a word.
-/

namespace Switching.Cube

/-- The row indices that start with an index and whose remaining bits lie in a
cube. -/
theorem mem_rowsFrom {cube : Cube} {index row : Nat} :
    row ∈ rowsFrom index cube ↔
      row / 2 ^ cube.length = index ∧ cube.covers (full (Row.bits cube.length row)) = true := by
  induction cube generalizing index with
  | nil => simp [rowsFrom, Row.bits, full]
  | cons place rest ih =>
      have halved : row / 2 ^ (rest.length + 1) = row / 2 ^ rest.length / 2 := by
        rw [Nat.pow_succ, Nat.div_div_eq_div_mul]
      have bits_eq : full (Row.bits (rest.length + 1) row) =
          Trit.ofBool (row.testBit rest.length) :: full (Row.bits rest.length row) := rfl
      rw [List.length_cons, halved, bits_eq, covers_cons_cons, Nat.testBit_eq_decide_div_mod_eq]
      generalize row / 2 ^ rest.length = front at ih
      rcases Nat.mod_two_eq_zero_or_one front with even | odd
      · have bit_eq : Trit.ofBool (decide (front % 2 = 1)) = .zero := by rw [even]; rfl
        rw [bit_eq]
        cases place <;> simp only [rowsFrom, List.mem_append, ih] <;> grind
      · have bit_eq : Trit.ofBool (decide (front % 2 = 1)) = .one := by rw [odd]; rfl
        rw [bit_eq]
        cases place <;> simp only [rowsFrom, List.mem_append, ih] <;> grind

/-- The rows of a cube are those whose full cubes it contains. -/
theorem mem_rows {cube : Cube} {row : Nat} :
    row ∈ cube.rows ↔
      row < Row.count cube.length ∧ cube.covers (full (Row.bits cube.length row)) = true := by
  rw [rows, mem_rowsFrom, Nat.div_eq_zero_iff_lt (Nat.two_pow_pos _), Row.count_eq_two_pow]

/-- The rows with a common beginning are listed in strictly ascending order. -/
theorem pairwise_rowsFrom (cube : Cube) (index : Nat) :
    (rowsFrom index cube).Pairwise (· < ·) := by
  induction cube generalizing index with
  | nil => exact List.pairwise_singleton _ index
  | cons place rest ih =>
      cases place with
      | one => exact ih (2 * index + 1)
      | zero => exact ih (2 * index)
      | dash =>
          refine List.pairwise_append.mpr ⟨ih (2 * index), ih (2 * index + 1), ?_⟩
          intro first firstMem second secondMem
          have firstFront := (mem_rowsFrom.mp firstMem).1
          have secondFront := (mem_rowsFrom.mp secondMem).1
          refine Nat.lt_of_not_le fun le => ?_
          have := Nat.div_le_div_right (c := 2 ^ rest.length) le
          omega

/-- The rows of a cube are listed in strictly ascending order. -/
theorem pairwise_rows (cube : Cube) : cube.rows.Pairwise (· < ·) :=
  pairwise_rowsFrom cube 0

/-! ## Texts of cubes -/

theorem ofSymbol?_eq_some_iff {c : Char} {place : Trit} :
    Trit.ofSymbol? c = some place ↔ place.symbol = c := by
  constructor
  · intro read
    unfold Trit.ofSymbol? at read
    split at read <;> cases read <;> rfl
  · rintro rfl
    cases place <;> rfl

/-- A text is read as the cube that it is written for. -/
theorem parse?_eq_some_iff {text : String} {cube : Cube} :
    parse? text = some cube ↔ cube.render = text := by
  rw [parse?, ofChars?, mapM_eq_some_iff_map_eq fun _ _ => ofSymbol?_eq_some_iff, render,
    ← String.toList_inj, String.toList_ofList]

/-- Every text of zeros, ones and dashes writes a cube. -/
theorem exists_parse? {text : String}
    (symbols : ∀ c ∈ text.toList, c = '0' ∨ c = '1' ∨ c = '-') :
    ∃ cube, parse? text = some cube := by
  let cube : Cube := text.toList.map fun c => (Trit.ofSymbol? c).getD .dash
  have symbols_eq : cube.map Trit.symbol = text.toList := by
    rw [List.map_map]
    refine (List.map_congr_left fun c mem => ?_).trans (List.map_id _)
    rcases symbols c mem with rfl | rfl | rfl <;> rfl
  refine ⟨cube, parse?_eq_some_iff.mpr (String.toList_inj.mp ?_)⟩
  rw [render, String.toList_ofList, symbols_eq]

/-- The full cube of a row is written as the pattern of the row. -/
theorem render_ofIndex (width index : Nat) :
    (ofIndex width index).render = Row.pattern width index := by
  rw [render, ofIndex, full, Row.pattern, List.map_map]
  congr 2
  funext bit
  cases bit <;> rfl

/-- The bits that a symbol admits, in ascending order. -/
def symbolBits : Char → List Bool
  | '0' => [false]
  | '1' => [true]
  | _ => [false, true]

/-- Append to every index each of the bits that a symbol admits. -/
def extend (indices : List Nat) (symbol : Char) : List Nat :=
  indices.flatMap fun index => (symbolBits symbol).map (Row.appendBit index)

/-- The indices that the symbols of a text write in binary notation. -/
def expansion (text : String) : List Nat :=
  text.toList.foldl extend [0]

/-- An index with room for the places of a cube has its first bits appended in a
word. -/
theorem flatMap_symbolBits {place : Trit} {rest : Cube} {index : Nat} (fits : index < 2 ^ 63) :
    ((symbolBits place.symbol).map (Row.appendBit index)).flatMap (fun next => rowsFrom next rest) =
      rowsFrom index (place :: rest) := by
  cases place <;> simp [symbolBits, Trit.symbol, rowsFrom, Row.appendBit_eq fits]

/-- Extending a list of indices by the symbols of a cube gives the rows that
start with one of these indices. -/
theorem foldl_extend_symbols (cube : Cube) : ∀ {indices : List Nat},
    (∀ index ∈ indices, (index + 1) * 2 ^ cube.length ≤ 2 ^ 64) →
      (cube.map Trit.symbol).foldl extend indices =
        indices.flatMap fun index => rowsFrom index cube := by
  induction cube with
  | nil => simp [rowsFrom]
  | cons place rest ih =>
      intro indices room
      have extendedRoom : ∀ next ∈ extend indices place.symbol,
          (next + 1) * 2 ^ rest.length ≤ 2 ^ 64 := by
        intro next mem
        obtain ⟨index, indexMem, inExtended⟩ := List.mem_flatMap.mp mem
        obtain ⟨bit, -, rfl⟩ := List.mem_map.mp inExtended
        obtain ⟨fits, restRoom⟩ := Row.room_succ (room index indexMem) bit
        rwa [Row.appendBit_eq fits]
      rw [List.map_cons, List.foldl_cons, ih extendedRoom, extend, List.flatMap_assoc,
        List.flatMap_def, List.flatMap_def]
      refine congrArg List.flatten (List.map_congr_left fun index mem => ?_)
      exact flatMap_symbolBits (Row.room_succ (room index mem) false).1

/-- As long as indices fit into a word, the indices that a text writes are the
rows of its cube. -/
theorem expansion_eq_rows {text : String} {cube : Cube} (parsed : parse? text = some cube)
    (fits : cube.length ≤ 64) : expansion text = cube.rows := by
  have room : (0 + 1) * 2 ^ cube.length ≤ 2 ^ 64 := by
    simpa using Nat.pow_le_pow_right (Nat.succ_pos 1) fits
  rw [expansion, ← parse?_eq_some_iff.mp parsed, render, String.toList_ofList,
    foldl_extend_symbols cube (by simpa using room), List.flatMap_singleton, rows]

/-- A text of at most 63 zeros, ones and dashes writes a cube.  Its indices are
the rows of this cube, that is, the indices of the full cubes in it, each listed
once and in ascending order; and the full cube of an index is written as the
pattern of the row. -/
theorem expansion_exact {text : String}
    (symbols : ∀ c ∈ text.toList, c = '0' ∨ c = '1' ∨ c = '-')
    (narrow : text.toList.length ≤ 63) :
    ∃ cube, parse? text = some cube ∧ expansion text = cube.rows ∧
      (expansion text).Pairwise (· < ·) ∧
      ∀ index,
        (index ∈ expansion text ↔ index < 2 ^ text.toList.length ∧
          cube.covers (ofIndex text.toList.length index) = true) ∧
        (ofIndex text.toList.length index).render =
          Row.pattern text.toList.length index := by
  obtain ⟨cube, parsed⟩ := exists_parse? symbols
  have length_eq : cube.length = text.toList.length := by
    rw [← parse?_eq_some_iff.mp parsed, render, String.toList_ofList, List.length_map]
  have rows_eq := expansion_eq_rows parsed (by omega)
  refine ⟨cube, parsed, rows_eq, rows_eq ▸ pairwise_rows cube, fun index => ⟨?_, ?_⟩⟩
  · rw [rows_eq, mem_rows, length_eq, Row.count_eq_two_pow]
    rfl
  · exact render_ofIndex text.toList.length index

/-- Four rows are written with a dash between fixed places and one at the end. -/
theorem dashedText_expansion :
    (∀ c ∈ "1-0-".toList, c = '0' ∨ c = '1' ∨ c = '-') ∧ "1-0-".toList.length ≤ 63 ∧
      parse? "1-0-" = some [.one, .dash, .zero, .dash] ∧ expansion "1-0-" = [8, 9, 12, 13] := by
  have symbols : ∀ c ∈ "1-0-".toList, c = '0' ∨ c = '1' ∨ c = '-' := by simp
  have narrow : "1-0-".toList.length ≤ 63 := by decide
  obtain ⟨cube, parsed, rows_eq, -⟩ := expansion_exact symbols narrow
  have cube_eq : parse? "1-0-" = some [.one, .dash, .zero, .dash] := by decide
  obtain rfl := Option.some.inj (parsed.symm.trans cube_eq)
  exact ⟨symbols, narrow, cube_eq, rows_eq⟩

end Switching.Cube
