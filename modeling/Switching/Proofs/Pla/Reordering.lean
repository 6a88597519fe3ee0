import Switching.Proofs.Pla.Meaning

/-!
# Reordered table files

The cube lines of a well-formed file may change places, as long as each stays in
its style: what the file means, and whether it can be read, does not depend on
their order.
-/

namespace Switching.Pla

variable {lines others front back : List Line} {line : Line} {inputs outputs : List String}

/-- Lines that differ in the symbols of cube lines only. -/
def SameOutline (lines others : List Line) : Prop :=
  List.Forall₂ (fun line other => line = other ∨ ∃ symbols otherSymbols,
    line = .cube symbols ∧ other = .cube otherSymbols) lines others

/-- Cube lines declare nothing, so that their symbols do not count. -/
theorem SameOutline.filterMap_eq {α : Type} {declares? : Line → Option α}
    (outline : SameOutline lines others) (cube : ∀ symbols, declares? (.cube symbols) = none) :
    others.filterMap declares? = lines.filterMap declares? := by
  induction outline with
  | nil => rfl
  | cons same _ ih =>
      rcases same with rfl | ⟨symbols, otherSymbols, rfl, rfl⟩
      · simp only [List.filterMap_cons, ih]
      · simp only [List.filterMap_cons, cube, ih]

theorem SameOutline.last?_eq {α : Type} {declares? : Line → Option α}
    (outline : SameOutline lines others) (cube : ∀ symbols, declares? (.cube symbols) = none) :
    last? declares? others = last? declares? lines := by
  rw [last?, outline.filterMap_eq cube, last?]

theorem SameOutline.mem_of_mem (outline : SameOutline lines others) (mem : line ∈ others)
    (cube : ∀ symbols, line ≠ .cube symbols) : line ∈ lines := by
  induction outline with
  | nil => exact mem
  | cons same _ ih =>
      rcases List.mem_cons.mp mem with rfl | mem
      · rcases same with rfl | ⟨_, symbols, -, other_eq⟩
        · exact List.mem_cons_self
        · exact absurd other_eq (cube symbols)
      · exact List.mem_cons_of_mem _ (ih mem)

/-- The lines in front of a cube line have the outline of those in front of a
cube line of the other file. -/
theorem SameOutline.exists_front {symbols : List Char}
    (outline : SameOutline lines (front ++ .cube symbols :: back)) :
    ∃ otherFront otherSymbols otherBack, lines = otherFront ++ .cube otherSymbols :: otherBack ∧
      SameOutline otherFront front := by
  induction front generalizing lines with
  | nil =>
      cases outline with
      | cons same _ =>
          rcases same with rfl | ⟨otherSymbols, _, rfl, -⟩
          · exact ⟨[], _, _, rfl, .nil⟩
          · exact ⟨[], _, _, rfl, .nil⟩
  | cons line rest ih =>
      cases outline with
      | cons same tail =>
          obtain ⟨otherFront, otherSymbols, otherBack, rfl, frontOutline⟩ := ih tail
          exact ⟨_ :: otherFront, otherSymbols, otherBack, rfl, .cons same frontOutline⟩

theorem mem_of_perm_cubesOf {symbols : List Char} (perm : (cubesOf others).Perm (cubesOf lines))
    (mem : .cube symbols ∈ others) : .cube symbols ∈ lines := by
  rw [← mem_map_symbols_iff false] at mem ⊢
  exact (perm.map GivenCube.symbols).subset mem

/-- A well-formed file remains so if its cube lines change places. -/
theorem WellFormed.reorder (wellFormed : WellFormed lines inputs outputs)
    (outline : SameOutline lines others) (perm : (cubesOf others).Perm (cubesOf lines)) :
    WellFormed others inputs outputs where
  inputCounts value mem := wellFormed.inputCounts value (outline.mem_of_mem mem (by simp))
  outputCounts value mem := wellFormed.outputCounts value (outline.mem_of_mem mem (by simp))
  inputs_length := by rw [outline.last?_eq fun _ => rfl, wellFormed.inputs_length]
  outputs_length := by rw [outline.last?_eq fun _ => rfl, wellFormed.outputs_length]
  inputs_eq := by rw [outline.last?_eq fun _ => rfl, ← wellFormed.inputs_eq]
  outputs_eq := by rw [outline.last?_eq fun _ => rfl, ← wellFormed.outputs_eq]
  inputs_nodup := wellFormed.inputs_nodup
  outputs_nodup := wellFormed.outputs_nodup
  inputs_le := wellFormed.inputs_le
  outputs_le := wellFormed.outputs_le
  cubes front symbols back others_eq := by
    subst others_eq
    obtain ⟨otherFront, otherSymbols, otherBack, lines_eq, frontOutline⟩ := outline.exists_front
    obtain ⟨inputCount_eq, outputCount_eq, -⟩ :=
      wellFormed.cubes otherFront otherSymbols otherBack lines_eq
    have mem : .cube symbols ∈ lines :=
      mem_of_perm_cubesOf perm (List.mem_append_right _ List.mem_cons_self)
    obtain ⟨before, after, split_eq⟩ := List.append_of_mem mem
    refine ⟨?_, ?_, (wellFormed.cubes before symbols after split_eq).2.2⟩
    · rw [frontOutline.last?_eq fun _ => rfl, inputCount_eq]
    · rw [frontOutline.last?_eq fun _ => rfl, outputCount_eq]

/-- What cube lines say does not depend on their order. -/
theorem says_eq_of_perm {cubes otherCubes : List GivenCube} (perm : otherCubes.Perm cubes) :
    Says otherCubes = Says cubes := by
  funext width row column cell
  simp only [Says, perm.mem_iff]

/-- A well-formed text is read as the table that its cube lines mean, unless
some of them contradict each other about a cell; then reading fails at such a
cell.  The order of the cube lines does not count. -/
theorem read_wellFormed {text : String} (wellFormed : WellFormed (body text) inputs outputs) :
    ((∃ error, read text = .error error) ↔ Contradictory (body text) inputs outputs) ∧
    (∀ error, read text = .error error →
      ∃ row < Row.count inputs.length, ∃ column : Fin outputs.length,
        Contradicts (cubesOf (body text)) inputs.length row column ∧
        error = .format (.conflictingValue (Row.pattern inputs.length row) (outputs.get column))) ∧
    (∀ table, read text = .ok table → table.inputs = inputs ∧ table.outputs = outputs ∧
      Means table (cubesOf (body text))) ∧
    ∀ other : String,
      SameOutline (body text) (body other) ∨ WellFormed (body other) inputs outputs →
      (cubesOf (body other)).Perm (cubesOf (body text)) →
      ((∃ error, read other = .error error) ↔ ∃ error, read text = .error error) ∧
      ∀ table, read other = .ok table ↔ read text = .ok table := by
  refine ⟨exists_readLines_eq_error_iff wellFormed,
    fun error failed => readLines_eq_error wellFormed failed, ?_, ?_⟩
  · intro table ok
    obtain ⟨inputs_eq, outputs_eq, means, -⟩ := readLines_eq_ok wellFormed ok
    exact ⟨inputs_eq, outputs_eq, means⟩
  · intro other reordered perm
    have otherWellFormed : WellFormed (body other) inputs outputs :=
      reordered.elim (wellFormed.reorder · perm) id
    have says_eq := says_eq_of_perm perm
    refine ⟨?_, fun table => ?_⟩
    · unfold read
      rw [exists_readLines_eq_error_iff otherWellFormed,
        exists_readLines_eq_error_iff wellFormed]
      exact contradictory_congr says_eq
    · exact ⟨readLines_eq_ok_of_says_eq otherWellFormed wellFormed says_eq.symm,
        readLines_eq_ok_of_says_eq wellFormed otherWellFormed says_eq⟩

/-- A text with two styles and overlapping cube lines. -/
def overlappingText : String :=
  ".i 2\n.o 2\n1- 2|0\n.type fr\n-1 1~\n.p 3\n0- ~0\n.e\n"

/-- The same text with the cube lines behind the style exchanged. -/
def exchangedText : String :=
  ".i 2\n.o 2\n1- 2|0\n.type fr\n0- ~0\n.p 3\n-1 1~\n.e\n"

theorem body_overlappingText : body overlappingText =
    [.inputCount "2", .outputCount "2", .cube ['1', '-', '2', '0'], .style "fr",
      .cube ['-', '1', '1', '~'], .nothing, .cube ['0', '-', '~', '0']] := by
  decide +kernel

theorem body_exchangedText : body exchangedText =
    [.inputCount "2", .outputCount "2", .cube ['1', '-', '2', '0'], .style "fr",
      .cube ['0', '-', '~', '0'], .nothing, .cube ['-', '1', '1', '~']] := by
  decide +kernel

theorem wellFormed_overlappingText :
    WellFormed (body overlappingText) ["x0", "x1"] ["y0", "y1"] := by
  rw [body_overlappingText]
  constructor
  case inputCounts | outputCounts => simp; decide +kernel
  case cubes =>
    intro front symbols back lines_eq
    simp only [List.cons_eq_append_iff, List.cons.injEq, reduceCtorEq, false_and, and_false,
      Line.cube.injEq, List.nil_eq, List.append_eq_nil_iff, exists_const, or_false,
      ↓existsAndEq, true_and, false_or] at lines_eq
    obtain ⟨_, rfl, ⟨rfl, rfl, -⟩ | ⟨_, rfl, ⟨rfl, rfl, -⟩ | ⟨rfl, rfl, -⟩⟩⟩ := lines_eq
    all_goals
      refine ⟨by decide +kernel, by decide +kernel, ?_⟩
      constructor <;> simp
  all_goals decide +kernel

theorem overlappingText_exchanged :
    WellFormed (body overlappingText) ["x0", "x1"] ["y0", "y1"] ∧
    ∃ table, read overlappingText = .ok table ∧ read exchangedText = .ok table ∧
      Means table (cubesOf (body overlappingText)) := by
  refine ⟨wellFormed_overlappingText, ?_⟩
  obtain ⟨-, -, ok, reordered⟩ := read_wellFormed wellFormed_overlappingText
  have outline : SameOutline (body overlappingText) (body exchangedText) := by
    rw [body_overlappingText, body_exchangedText]
    simp [SameOutline]
  have perm : (cubesOf (body exchangedText)).Perm (cubesOf (body overlappingText)) := by
    rw [body_overlappingText, body_exchangedText]
    decide +kernel
  have isOk : (read overlappingText).isOk = true := by decide +kernel
  cases outcome : read overlappingText with
  | error error => rw [outcome] at isOk; cases isOk
  | ok table =>
      exact ⟨table, rfl, ((reordered exchangedText (.inl outline) perm).2 table).mpr outcome,
        (ok table outcome).2.2⟩

end Switching.Pla
